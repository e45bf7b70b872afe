import OpusSysV.Os.Swap
import Mathlib.Algebra.BigOperators.Group.Finset.Basic

/-!
# The swap file table: `os/swapalloc.c`

`swapadd` opens a device and allocates an array of use counts for it, and may sleep in both;
`swapdel` marks a file, waits until its pages are free and removes it.  Other processes call
all the routines meanwhile.

* `swapadd`, `opened`, `alloced` — the parts of `swapadd` between two sleeps; `swapdel`,
  `swapdelTurn`, `swaprem` — those of `swapdel`.  `swalloc`, `swpinc` and `swfree1` are those
  of `Os.Swap`, on the files that are in use.
* `Consistent` — the swap part of `availsmem`, the opens of every device and the arrays belong
  to the files in use, `swalloc` uses no other files, and one of them is not being deleted.
* `table_run` — the table is consistent in every run in which `swapadd` finds memory for the
  array, no other `swapadd` has taken its entry or added its file while the device was opened,
  and no file is removed twice; `table_lost` has runs of the other kinds.
-/

namespace Os.SwapAdm

open Lib Function List Option

/-- An entry of `swaptab[]`; `indel` is `ST_INDEL`, and `st_ucnt` is `none` for `NULL`.  The
other fields of an entry that is not in use are what its last file has left there. -/
structure Swpt where
  st_dev : ℕ
  indel : Bool
  st_ucnt : Option (List UInt8)
  st_next : ℕ
  st_swplo : ℤ
  st_npgs : ℤ
  st_nfpgs : ℤ
  deriving DecidableEq

/-- A `swapadd` that waits for the open of its device, with the entry it has chosen. -/
structure Opening where
  smi : ℕ
  dev : ℕ
  lowblk : ℤ
  nblks : ℤ
  deriving DecidableEq

/-- A `swapadd` in `sptalloc` for an array of `i` counts, with the device that it has opened. -/
structure Allocing where
  smi : ℕ
  dev : ℕ
  i : ℤ
  deriving DecidableEq

/-- `swaptab[]`, `nextswap`, the processes that wait for swap space, the swap part of
`availsmem`, and the calls under way; `deleting` has the entries of those in the loop of
`swapdel`.  `opens` counts the opens of a device that it was not closed after, `arrays` the
arrays allocated, and `freed` is what `sptfree` was called with. -/
structure Adm where
  swaptab : ℕ → Swpt
  nextswap : ℕ
  swapwold : List (ℕ × ℤ)
  swapmem : ℤ
  opening : List Opening
  allocing : List Allocing
  deleting : List ℕ
  opens : ℕ → ℤ
  arrays : ℕ
  freed : List (Option (List UInt8))

/-- What `u_error` is set to. -/
inductive Err
  | EEXIST
  | ENOSPC
  | EINVAL
  | ENOMEM
  deriving DecidableEq, Repr

/-- What a call comes to: it returns, it returns -1 with an error, or it sleeps. -/
inductive Turn
  | ret (v : ℤ)
  | error (e : Err)
  | sleeps
  deriving DecidableEq, Repr

/-- The entry is in use. -/
def Swpt.inUse (st : Swpt) : Bool := st.st_ucnt.isSome

/-- The entry is in use and not being deleted. -/
def Swpt.usable (st : Swpt) : Bool := st.inUse && !st.indel

/-- The entry is in use for the file on `dev` from `lowblk` on. -/
def Swpt.named (dev : ℕ) (lowblk : ℤ) (st : Swpt) : Bool :=
  st.inUse && decide (st.st_dev = dev ∧ st.st_swplo = lowblk)

/-! ## `swapadd` -/

/-- `swapadd(dev, lowblk, nblks)` up to the open of the device. -/
def swapadd (s : Adm) (dev : ℕ) (lowblk nblks : ℤ) : Turn × Adm :=
  match (List.range MSFILES).find? fun i => (s.swaptab i).named dev lowblk with
  | some i =>
    let st := s.swaptab i
    if st.indel ∧ st.st_npgs = nblks / blksPerPage then
      -- `smi` is the first free entry before this one
      let smi := (List.range i).find? fun j => !(s.swaptab j).inUse
      (.ret (smi.elim (-1) fun j => (j : ℤ)),
        { s with
          swaptab := update s.swaptab i { st with indel := false }
          swapmem := s.swapmem + st.st_npgs })
    else (.error .EEXIST, s)
  | none =>
    match (List.range MSFILES).find? fun i => !(s.swaptab i).inUse with
    | none => (.error .ENOSPC, s)
    | some smi => (.sleeps, { s with opening := s.opening ++ [⟨smi, dev, lowblk, nblks⟩] })

/-- `swapadd` from the open, which has failed if not `ok`, to the call of `sptalloc`. -/
def opened (s : Adm) (a : Opening) (ok : Bool) : Option Adm :=
  if a ∈ s.opening then
    let st := s.swaptab a.smi
    if ok then
      let npgs := a.nblks / blksPerPage
      some { s with
        swaptab := update s.swaptab a.smi
          { st with st_dev := a.dev, st_swplo := a.lowblk, st_npgs := npgs, st_nfpgs := npgs }
        opening := s.opening.erase a
        allocing := s.allocing ++ [⟨a.smi, a.dev, npgs⟩]
        opens := update s.opens a.dev (s.opens a.dev + 1) }
    else
      some { s with
        swaptab := update s.swaptab a.smi { st with st_ucnt := none, indel := false }
        opening := s.opening.erase a }
  else none

/-- `swapadd` from `sptalloc` on, which has no memory if not `ok`; it has none of no size. -/
def alloced (s : Adm) (a : Allocing) (ok : Bool) : Option Adm :=
  if a ∈ s.allocing then
    let st := s.swaptab a.smi
    if ok then
      if 1 ≤ a.i then
        some { s with
          swaptab := update s.swaptab a.smi
            { st with
              st_ucnt := some (List.replicate a.i.toNat 0), st_next := 0, indel := false }
          swapwold := []
          swapmem := s.swapmem + st.st_npgs
          allocing := s.allocing.erase a
          arrays := s.arrays + 1 }
      else none
    else
      some { s with
        swaptab := update s.swaptab a.smi { st with st_ucnt := none }
        allocing := s.allocing.erase a }
  else none

/-! ## `swapdel` -/

/-- `swaprem(&swaptab[smi])`. -/
def swaprem (s : Adm) (smi : ℕ) : Adm :=
  let st := s.swaptab smi
  { s with
    swaptab := update s.swaptab smi { st with st_ucnt := none }
    opens := update s.opens st.st_dev (s.opens st.st_dev - 1)
    freed := s.freed ++ [st.st_ucnt] }

/-- A turn of the loop of `swapdel`, in which `getswap` or `delay` sleeps, or what follows the
loop. -/
def swapdelTurn (s : Adm) (smi : ℕ) : Adm :=
  let st := s.swaptab smi
  if st.st_nfpgs < st.st_npgs ∧ st.indel then { s with deleting := s.deleting ++ [smi] }
  else if st.st_nfpgs = st.st_npgs ∧ st.indel then swaprem s smi
  else s

/-- `swapdel(dev, lowblk)` to the end of its first turn; `rest` is the other part of
`availsmem`. -/
def swapdel (t_minasmem : ℤ) (s : Adm) (dev : ℕ) (lowblk rest : ℤ) : Turn × Adm :=
  let found := (List.range MSFILES).filter fun i => (s.swaptab i).named dev lowblk
  let ok := (List.range MSFILES).countP fun i =>
    (s.swaptab i).usable && !(s.swaptab i).named dev lowblk
  match found.getLast? with
  | none => (.error .EINVAL, s)
  | some smi =>
    if ok = 0 then (.error .ENOMEM, s)
    else
      let st := s.swaptab smi
      let turn := fun s : Adm =>
        (if st.st_nfpgs < st.st_npgs then Turn.sleeps else .ret smi, swapdelTurn s smi)
      if ¬ st.indel then
        if rest + s.swapmem - st.st_npgs < t_minasmem then (.error .ENOMEM, s)
        else turn
          { s with
            swaptab := update s.swaptab smi { st with indel := true }
            swapmem := s.swapmem - st.st_npgs }
      else turn s

/-! ## The other calls -/

/-- The files in use. -/
def Adm.files (s : Adm) : SwapTab where
  swaptab smi := (s.swaptab smi).st_ucnt.map fun u =>
    ⟨(s.swaptab smi).indel, u, (s.swaptab smi).st_next, (s.swaptab smi).st_swplo,
      (s.swaptab smi).st_nfpgs⟩
  nextswap := s.nextswap
  swapwold := s.swapwold

/-- An entry with what a call has made of its file. -/
def Swpt.put (st : Swpt) : Option SwapFile → Swpt
  | none => st
  | some f => { st with st_ucnt := some f.ucnt, st_next := f.next, st_nfpgs := f.nfpgs }

/-- The table with what a call has made of the files. -/
def Adm.put (s : Adm) (t : SwapTab) : Adm :=
  { s with
    swaptab := fun smi => (s.swaptab smi).put (t.swaptab smi)
    nextswap := t.nextswap
    swapwold := t.swapwold }

/-- `st_npgs` of the files in use is the length of their arrays.  What the calls do to a file
whose `st_npgs` another `swapadd` has changed is not described. -/
def Adm.described (s : Adm) : Bool :=
  (List.range MSFILES).all fun i =>
    (s.swaptab i).st_ucnt.all fun u => decide ((s.swaptab i).st_npgs = u.length)

/-- What happens: the parts of `swapadd` and `swapdel`, and the other calls. -/
inductive AdmEvent
  | swapadd (dev : ℕ) (lowblk nblks : ℤ)
  | opened (a : Opening) (ok : Bool)
  | alloced (a : Allocing) (ok : Bool)
  | swapdel (dev : ℕ) (lowblk rest : ℤ)
  | turn (smi : ℕ)
  | call (c : SwapCall)

/-- One event. -/
def step (firstfit : Bool) (t_minasmem : ℤ) (s : Adm) : AdmEvent → Option Adm
  | .swapadd dev lowblk nblks => some (SwapAdm.swapadd s dev lowblk nblks).2
  | .opened a ok => SwapAdm.opened s a ok
  | .alloced a ok => SwapAdm.alloced s a ok
  | .swapdel dev lowblk rest => some (SwapAdm.swapdel t_minasmem s dev lowblk rest).2
  | .turn smi =>
    if smi ∈ s.deleting then some (swapdelTurn { s with deleting := s.deleting.erase smi } smi)
    else none
  | .call c => if s.described then (s.files.step firstfit c).map s.put else none

/-- The table when `main` has added a file of `n` pages on `dev`. -/
def booted (dev : ℕ) (lowblk : ℤ) (n : ℕ) : Adm where
  swaptab smi :=
    if smi = 0 then ⟨dev, false, some (List.replicate n 0), 0, lowblk, n, n⟩
    else ⟨0, false, none, 0, 0, 0, 0⟩
  nextswap := 0
  swapwold := []
  swapmem := n
  opening := []
  allocing := []
  deleting := []
  opens d := if d = dev then 1 else 0
  arrays := 1
  freed := []

/-! ## What is consistent -/

/-- The sum of `f` over the table. -/
def total (tab : ℕ → Swpt) (f : Swpt → ℤ) : ℤ := ∑ i ∈ Finset.range MSFILES, f (tab i)

/-- `st_npgs` of an entry in use and not being deleted. -/
def Swpt.pages (st : Swpt) : ℤ := if st.usable then st.st_npgs else 0

/-- Whether the entry is in use for a file on `dev`. -/
def Swpt.on (dev : ℕ) (st : Swpt) : ℤ := if st.inUse ∧ st.st_dev = dev then 1 else 0

/-- Whether the entry is in use. -/
def Swpt.one (st : Swpt) : ℤ := if st.inUse then 1 else 0

/-- The table is consistent: the swap part of `availsmem` is the sum over the usable files; a
device is open once for every file in use on it and every `swapadd` that is to make one; the
arrays that are not freed are those of the files in use, and those freed had no page in use;
`swalloc` takes pages of usable files; no file is in the table twice; there is a usable
file. -/
structure Consistent (firstfit : Bool) (s : Adm) : Prop where
  swapmem_eq : s.swapmem = total s.swaptab Swpt.pages
  opens_eq : ∀ dev, s.opens dev =
    total s.swaptab (Swpt.on dev) + s.allocing.countP fun a => a.dev = dev
  arrays_eq : (s.arrays : ℤ) = total s.swaptab Swpt.one + s.freed.length
  freed_zero : ∀ a ∈ s.freed, ∃ u, a = some u ∧ ∀ c ∈ u, c = 0
  swalloc_usable : ∀ p size waitflag clup blk dbds t, 1 ≤ size →
    swalloc firstfit s.files p size waitflag clup = some (.ok blk dbds, t) →
      ∀ dbd ∈ dbds, (s.swaptab dbd.swpi).usable = true
  distinct : ∀ i j, (s.swaptab i).inUse = true → (s.swaptab j).inUse = true →
    (s.swaptab i).st_dev = (s.swaptab j).st_dev →
      (s.swaptab i).st_swplo = (s.swaptab j).st_swplo → i = j
  usable : ∃ smi, smi < MSFILES ∧ (s.swaptab smi).usable = true

/-- The entry is in use, or a `swapadd` allocates its array. -/
def Adm.claimed (s : Adm) (i : ℕ) : Bool :=
  (s.swaptab i).inUse || s.allocing.any fun b => b.smi = i

/-- When `swapadd` and `swapdel` do what they are to do: when a device has been opened, the
entry for it is not claimed, and no claimed entry is for the same file; after an open that has
failed, it is not in use; there is memory for the array; a file that is removed is in use. -/
def Meets (s : Adm) : AdmEvent → Prop
  | .opened a true => ∀ i, i < MSFILES → s.claimed i = true →
      i ≠ a.smi ∧ ¬ ((s.swaptab i).st_dev = a.dev ∧ (s.swaptab i).st_swplo = a.lowblk)
  | .opened a false => (s.swaptab a.smi).inUse = false
  | .alloced _ ok => ok = true
  | .turn smi => (s.swaptab smi).st_nfpgs = (s.swaptab smi).st_npgs →
      (s.swaptab smi).indel = true → (s.swaptab smi).inUse = true
  | _ => True

section good

variable {s t : Adm} {tab : ℕ → Swpt} {i smi : ℕ} {st x : Swpt} {firstfit : Bool}

/-- An entry in use: the counts of its array, and `st_next`. -/
structure EntryOk (i : ℕ) (st : Swpt) (u : List UInt8) : Prop where
  lt : i < MSFILES
  npgs_eq : st.st_npgs = u.length
  nfpgs_eq : st.st_nfpgs = u.count 0
  next_le : st.st_next ≤ u.length

/-- A `swapadd` in `sptalloc`: its entry is filled in but for the array. -/
structure Filled (tab : ℕ → Swpt) (a : Allocing) : Prop where
  lt : a.smi < MSFILES
  free : (tab a.smi).st_ucnt = none
  dev_eq : (tab a.smi).st_dev = a.dev
  npgs_eq : (tab a.smi).st_npgs = a.i
  nfpgs_eq : (tab a.smi).st_nfpgs = a.i

/-- What every event keeps. -/
structure Good (s : Adm) : Prop where
  swapmem_eq : s.swapmem = total s.swaptab Swpt.pages
  opens_eq : ∀ dev, s.opens dev =
    total s.swaptab (Swpt.on dev) + s.allocing.countP fun a => a.dev = dev
  arrays_eq : (s.arrays : ℤ) = total s.swaptab Swpt.one + s.freed.length
  freed_zero : ∀ a ∈ s.freed, ∃ u, a = some u ∧ ∀ c ∈ u, c = 0
  entry : ∀ i u, (s.swaptab i).st_ucnt = some u → EntryOk i (s.swaptab i) u
  usable : ∃ smi, smi < MSFILES ∧ (s.swaptab smi).usable = true
  nextswap_lt : s.nextswap < MSFILES
  opening_lt : ∀ a ∈ s.opening, a.smi < MSFILES
  filled : ∀ a ∈ s.allocing, Filled s.swaptab a
  apart : (s.allocing.map Allocing.smi).Nodup
  distinct : ∀ i j, s.claimed i = true → s.claimed j = true →
    (s.swaptab i).st_dev = (s.swaptab j).st_dev →
      (s.swaptab i).st_swplo = (s.swaptab j).st_swplo → i = j

/-! ## One entry changes -/

theorem total_update (tab : ℕ → Swpt) (x : Swpt) (h : i < MSFILES) (f : Swpt → ℤ) :
    total (update tab i x) f + f (tab i) = total tab f + f x := by
  have hmem : i ∈ Finset.range MSFILES := Finset.mem_range.mpr h
  unfold total
  rw [← Finset.add_sum_erase _ _ hmem, ← Finset.add_sum_erase _ (fun j => f (tab j)) hmem,
    update_self]
  have hrest : ∑ j ∈ (Finset.range MSFILES).erase i, f (update tab i x j) =
      ∑ j ∈ (Finset.range MSFILES).erase i, f (tab j) :=
    Finset.sum_congr rfl fun j hj => by rw [update_of_ne (Finset.ne_of_mem_erase hj)]
  rw [hrest]
  ring

theorem total_congr {tab' : ℕ → Swpt} {f : Swpt → ℤ} (h : ∀ i, f (tab' i) = f (tab i)) :
    total tab' f = total tab f :=
  Finset.sum_congr rfl fun i _ => h i

/-- A sum that the change of an entry does not touch. -/
theorem total_same (h : i < MSFILES) {f : Swpt → ℤ} (hf : f x = f (tab i)) :
    total (update tab i x) f = total tab f := by
  have := total_update tab x h f
  omega

theorem usable_update (hs : ∃ j, j < MSFILES ∧ (tab j).usable = true)
    (h : (tab i).usable = true → x.usable = true) :
    ∃ j, j < MSFILES ∧ (update tab i x j).usable = true := by
  obtain ⟨j, hj, huse⟩ := hs
  refine ⟨j, hj, ?_⟩
  rw [update_apply]
  split_ifs with hji
  · subst hji
    exact h huse
  · rw [huse]

theorem entry_update (hs : ∀ j u, (tab j).st_ucnt = some u → EntryOk j (tab j) u)
    (h : ∀ u, x.st_ucnt = some u → EntryOk i x u) (j : ℕ) (u : List UInt8)
    (hu : (update tab i x j).st_ucnt = some u) :
    EntryOk j (update tab i x j) u := by
  rw [update_apply] at hu ⊢
  split_ifs at hu ⊢ with hji
  · subst hji
    exact h u hu
  · exact hs j u hu

theorem inUse_iff : st.inUse = true ↔ ∃ u, st.st_ucnt = some u := isSome_iff_exists

theorem inUse_eq_false (h : st.inUse = false) : st.st_ucnt = none := by
  unfold Swpt.inUse at h
  rwa [isSome_eq_false_iff, isNone_iff_eq_none] at h

/-- An entry that is not in use counts nowhere. -/
theorem free_weights (h : st.st_ucnt = none) (dev : ℕ) :
    st.pages = 0 ∧ st.on dev = 0 ∧ st.one = 0 ∧ st.usable = false := by
  simp [Swpt.pages, Swpt.on, Swpt.one, Swpt.usable, Swpt.inUse, h]

theorem Filled.of_ne {a : Allocing} (h : Filled tab a) (hne : a.smi ≠ i) :
    Filled (update tab i x) a := by
  obtain ⟨h1, h2, h3, h4, h5⟩ := h
  refine ⟨h1, ?_, ?_, ?_, ?_⟩ <;> rwa [update_of_ne hne]

theorem claimed_iff :
    s.claimed i = true ↔ (s.swaptab i).inUse = true ∨ ∃ b ∈ s.allocing, b.smi = i := by
  simp [Adm.claimed]

/-- Entries that are claimed for the same files as before are claimed for distinct files. -/
theorem Good.distinct_of (hs : Good s) (h : ∀ i, t.claimed i = true → s.claimed i = true ∧
      (t.swaptab i).st_dev = (s.swaptab i).st_dev ∧
      (t.swaptab i).st_swplo = (s.swaptab i).st_swplo) (i j : ℕ) (hi : t.claimed i = true)
    (hj : t.claimed j = true) (hdev : (t.swaptab i).st_dev = (t.swaptab j).st_dev)
    (hlo : (t.swaptab i).st_swplo = (t.swaptab j).st_swplo) : i = j := by
  obtain ⟨hci, hdi, hli⟩ := h i hi
  obtain ⟨hcj, hdj, hlj⟩ := h j hj
  exact hs.distinct i j hci hcj (by rw [← hdi, ← hdj, hdev]) (by rw [← hli, ← hlj, hlo])

/-- An entry changes that is claimed as before, for the same file. -/
theorem claimed_update {j : ℕ} (htab : t.swaptab = update s.swaptab j x)
    (halloc : ∀ b ∈ t.allocing, b ∈ s.allocing)
    (huse : x.inUse = true → s.claimed j = true) (hdev : x.st_dev = (s.swaptab j).st_dev)
    (hlo : x.st_swplo = (s.swaptab j).st_swplo) (i : ℕ) (hi : t.claimed i = true) :
    s.claimed i = true ∧ (t.swaptab i).st_dev = (s.swaptab i).st_dev ∧
      (t.swaptab i).st_swplo = (s.swaptab i).st_swplo := by
  rw [htab]
  have hi := claimed_iff.mp hi
  rw [htab] at hi
  rw [update_apply] at hi ⊢
  split_ifs at hi ⊢ with hij
  · rw [hij] at hi ⊢
    refine ⟨?_, hdev, hlo⟩
    rcases hi with hi | ⟨b, hb, hbi⟩
    · exact huse hi
    · exact claimed_iff.mpr (.inr ⟨b, halloc b hb, hbi⟩)
  · refine ⟨claimed_iff.mpr ?_, rfl, rfl⟩
    rcases hi with hi | ⟨b, hb, hbi⟩
    · exact .inl hi
    · exact .inr ⟨b, halloc b hb, hbi⟩

/-! ## `swapadd` -/

theorem mem_range_of_find {p : ℕ → Bool} {n : ℕ} (h : (List.range n).find? p = some i) :
    i < n ∧ p i = true :=
  ⟨mem_range.mp (mem_of_find?_eq_some h), List.find?_some h⟩

theorem named_inUse {dev : ℕ} {lowblk : ℤ} (h : st.named dev lowblk = true) :
    st.inUse = true := by
  unfold Swpt.named at h
  exact (Bool.and_eq_true_iff.mp h).1

section

variable (hs : Good s)

include hs

/-- A file that was being deleted is used again. -/
theorem Good.cancel {dev : ℕ} {lowblk : ℤ} (hi : i < MSFILES)
    (hnamed : (s.swaptab i).named dev lowblk = true) (hindel : (s.swaptab i).indel = true) :
    Good { s with
      swaptab := update s.swaptab i { s.swaptab i with indel := false }
      swapmem := s.swapmem + (s.swaptab i).st_npgs } := by
  have huse := named_inUse hnamed
  obtain ⟨u, hu⟩ := inUse_iff.mp huse
  have hfree : ∀ a ∈ s.allocing, a.smi ≠ i := by
    rintro a ha rfl
    rw [(hs.filled a ha).free] at hu
    cases hu
  refine ⟨?_, fun d => ?_, ?_, hs.freed_zero, ?_, ?_, hs.nextswap_lt, hs.opening_lt,
    fun a ha => ?_, hs.apart, hs.distinct_of (claimed_update rfl (fun _ hb => hb)
      (fun _ => claimed_iff.mpr (.inl huse)) rfl rfl)⟩
  · have htotal := total_update s.swaptab { s.swaptab i with indel := false } hi Swpt.pages
    have hold : (s.swaptab i).pages = 0 := by simp [Swpt.pages, Swpt.usable, hindel]
    have hnew : Swpt.pages { s.swaptab i with indel := false } = (s.swaptab i).st_npgs := by
      simp [Swpt.pages, Swpt.usable, Swpt.inUse, hu]
    have := hs.swapmem_eq
    show s.swapmem + (s.swaptab i).st_npgs =
      total (update s.swaptab i { s.swaptab i with indel := false }) Swpt.pages
    omega
  · show s.opens d = _
    rw [total_same hi (by rfl)]
    exact hs.opens_eq d
  · show (s.arrays : ℤ) = _
    rw [total_same hi (by rfl)]
    exact hs.arrays_eq
  · refine entry_update hs.entry fun u hu => ?_
    obtain ⟨h1, h2, h3, h4⟩ := hs.entry i u hu
    exact ⟨h1, h2, h3, h4⟩
  · refine usable_update hs.usable fun _ => ?_
    simp [Swpt.usable, Swpt.inUse, hu]
  · exact (hs.filled a ha).of_ne (hfree a ha)

theorem Good.swapadd {dev : ℕ} {lowblk nblks : ℤ} :
    Good (swapadd s dev lowblk nblks).2 := by
  unfold SwapAdm.swapadd
  generalize hfind : ((List.range MSFILES).find? fun i => (s.swaptab i).named dev lowblk) = found
  cases found with
  | some i =>
    obtain ⟨hi, hnamed⟩ := mem_range_of_find hfind
    dsimp only
    split_ifs with hc
    · exact hs.cancel hi hnamed hc.1
    · exact hs
  | none =>
    generalize hfree : ((List.range MSFILES).find? fun i => !(s.swaptab i).inUse) = free
    cases free with
    | none => exact hs
    | some smi =>
      obtain ⟨hi, -⟩ := mem_range_of_find hfree
      refine ⟨hs.swapmem_eq, hs.opens_eq, hs.arrays_eq, hs.freed_zero, hs.entry, hs.usable,
        hs.nextswap_lt, fun a ha => ?_, hs.filled, hs.apart, hs.distinct⟩
      rcases mem_append.mp ha with ha | ha
      · exact hs.opening_lt a ha
      · rw [mem_singleton.mp ha]
        exact hi

/-- An entry that is free and that no `swapadd` fills is filled in, or cleared. -/
theorem Good.scribble (hi : i < MSFILES) (hold : (s.swaptab i).st_ucnt = none)
    (hx : x.st_ucnt = none) :
    s.swapmem = total (update s.swaptab i x) Swpt.pages ∧
      (∀ dev, s.opens dev = total (update s.swaptab i x) (Swpt.on dev) +
        s.allocing.countP fun a => a.dev = dev) ∧
      (s.arrays : ℤ) = total (update s.swaptab i x) Swpt.one + s.freed.length ∧
      (∀ j u, (update s.swaptab i x j).st_ucnt = some u →
        EntryOk j (update s.swaptab i x j) u) ∧
      ∃ j, j < MSFILES ∧ (update s.swaptab i x j).usable = true := by
  refine ⟨?_, fun dev => ?_, ?_, ?_, ?_⟩
  · rw [total_same hi (by rw [(free_weights hx 0).1, (free_weights hold 0).1])]
    exact hs.swapmem_eq
  · rw [total_same hi (by rw [(free_weights hx dev).2.1, (free_weights hold dev).2.1])]
    exact hs.opens_eq dev
  · rw [total_same hi (by rw [(free_weights hx 0).2.2.1, (free_weights hold 0).2.2.1])]
    exact hs.arrays_eq
  · refine entry_update hs.entry fun u hu => ?_
    rw [hx] at hu
    cases hu
  · refine usable_update hs.usable fun huse => ?_
    rw [(free_weights hold 0).2.2.2] at huse
    cases huse

theorem Good.claimed_lt (h : s.claimed i = true) : i < MSFILES := by
  rcases claimed_iff.mp h with h | ⟨b, hb, rfl⟩
  · obtain ⟨u, hu⟩ := inUse_iff.mp h
    exact (hs.entry i u hu).lt
  · exact (hs.filled b hb).lt

theorem Good.opened {a : Opening} {ok : Bool} (hmeets : Meets s (.opened a ok))
    (ht : opened s a ok = some t) : Good t := by
  unfold SwapAdm.opened at ht
  by_cases ha : a ∈ s.opening
  · rw [if_pos ha] at ht
    have hi := hs.opening_lt a ha
    have hrest : ∀ b ∈ s.opening.erase a, b.smi < MSFILES :=
      fun b hb => hs.opening_lt b (mem_of_mem_erase hb)
    dsimp only at ht
    cases ok with
    | true =>
      rw [if_pos rfl] at ht
      cases ht
      have hclaimed : ¬ s.claimed a.smi = true := fun h => (hmeets a.smi hi h).1 rfl
      have hnone : (s.swaptab a.smi).st_ucnt = none :=
        inUse_eq_false (Bool.eq_false_iff.mpr fun h => hclaimed (claimed_iff.mpr (.inl h)))
      have hothers : ∀ b ∈ s.allocing, b.smi ≠ a.smi :=
        fun b hb heq => hclaimed (claimed_iff.mpr (.inr ⟨b, hb, heq⟩))
      obtain ⟨hmem, hopens, harr, hentry, huse⟩ := hs.scribble hi hnone
        (show ({ s.swaptab a.smi with
          st_dev := a.dev, st_swplo := a.lowblk, st_npgs := a.nblks / blksPerPage,
          st_nfpgs := a.nblks / blksPerPage } : Swpt).st_ucnt = none from hnone)
      refine ⟨hmem, fun d => ?_, harr, hs.freed_zero, hentry, huse, hs.nextswap_lt, hrest,
        fun b hb => ?_, ?_, ?_⟩
      · have := hopens d
        dsimp only at this ⊢
        rw [countP_append, countP_singleton]
        by_cases hd : d = a.dev
        · subst hd
          rw [update_self, if_pos (by simp)]
          push_cast
          omega
        · rw [update_of_ne hd, if_neg (by simpa using fun h => hd h.symm)]
          push_cast
          omega
      · rcases mem_append.mp hb with hb | hb
        · exact (hs.filled b hb).of_ne (hothers b hb)
        · rw [mem_singleton.mp hb]
          refine ⟨hi, ?_, ?_, ?_, ?_⟩ <;> dsimp only <;> rw [update_self]
          exact hnone
      · dsimp only
        rw [map_append, map_singleton, nodup_append]
        refine ⟨hs.apart, nodup_singleton _, fun x hx y hy hxy => ?_⟩
        obtain ⟨b, hb, rfl⟩ := mem_map.mp hx
        exact hothers b hb (hxy.trans (mem_singleton.mp hy))
      · -- of two claimed entries, one at most is the new one
        have hold : ∀ i, i ≠ a.smi → Adm.claimed { s with
            swaptab := update s.swaptab a.smi { s.swaptab a.smi with
              st_dev := a.dev, st_swplo := a.lowblk, st_npgs := a.nblks / blksPerPage,
              st_nfpgs := a.nblks / blksPerPage }
            allocing := s.allocing ++ [⟨a.smi, a.dev, a.nblks / blksPerPage⟩] } i = true →
            i < MSFILES ∧ s.claimed i = true := by
          intro i hne hci
          have hci : s.claimed i = true := by
            rcases claimed_iff.mp hci with hci | ⟨b, hb, hbi⟩
            · dsimp only at hci
              rw [update_of_ne hne] at hci
              exact claimed_iff.mpr (.inl hci)
            · rcases mem_append.mp hb with hb | hb
              · exact claimed_iff.mpr (.inr ⟨b, hb, hbi⟩)
              · rw [mem_singleton.mp hb] at hbi
                exact absurd hbi.symm hne
          exact ⟨hs.claimed_lt hci, hci⟩
        intro i j hci hcj hdev hlo
        dsimp only at hdev hlo
        by_cases hia : i = a.smi <;> by_cases hja : j = a.smi
        · rw [hia, hja]
        · rw [hia, update_self, update_of_ne hja] at hdev hlo
          obtain ⟨hlt, hcj⟩ := hold j hja hcj
          exact absurd ⟨hdev.symm, hlo.symm⟩ (hmeets j hlt hcj).2
        · rw [hja, update_self, update_of_ne hia] at hdev hlo
          obtain ⟨hlt, hci⟩ := hold i hia hci
          exact absurd ⟨hdev, hlo⟩ (hmeets i hlt hci).2
        · rw [update_of_ne hia, update_of_ne hja] at hdev hlo
          exact hs.distinct i j (hold i hia hci).2 (hold j hja hcj).2 hdev hlo
    | false =>
      rw [if_neg Bool.false_ne_true] at ht
      cases ht
      have hnone : (s.swaptab a.smi).st_ucnt = none := inUse_eq_false hmeets
      obtain ⟨hmem, hopens, harr, hentry, huse⟩ := hs.scribble hi hnone
        (show ({ s.swaptab a.smi with st_ucnt := none, indel := false } : Swpt).st_ucnt = none
          from rfl)
      refine ⟨hmem, hopens, harr, hs.freed_zero, hentry, huse, hs.nextswap_lt, hrest,
        fun b hb => ?_, hs.apart, hs.distinct_of (claimed_update rfl (fun _ hb => hb)
          (fun h => nomatch h) rfl rfl)⟩
      -- the other fields of the entry are left
      by_cases hba : b.smi = a.smi
      · obtain ⟨h1, h2, h3, h4, h5⟩ := hs.filled b hb
        refine ⟨h1, ?_, ?_, ?_, ?_⟩ <;> dsimp only <;> rw [hba, update_self]
        · rwa [hba] at h3
        · rwa [hba] at h4
        · rwa [hba] at h5
      · exact (hs.filled b hb).of_ne hba
  · rw [if_neg ha] at ht
    cases ht

omit hs in
theorem countP_erase {p : Allocing → Bool} {a : Allocing} {l : List Allocing} (ha : a ∈ l) :
    (l.erase a).countP p + (if p a then 1 else 0) = l.countP p := by
  have := (perm_cons_erase ha).countP_eq p
  rw [this, countP_cons]

theorem Good.alloced {a : Allocing} (ht : alloced s a true = some t) :
    Good t := by
  unfold SwapAdm.alloced at ht
  by_cases ha : a ∈ s.allocing
  · rw [if_pos ha] at ht
    dsimp only at ht
    rw [if_pos rfl] at ht
    by_cases hpos : 1 ≤ a.i
    · rw [if_pos hpos] at ht
      obtain ⟨hi, hnone, hdev, hnpgs, hnfpgs⟩ := hs.filled a ha
      obtain ⟨x, hx⟩ : ∃ x : Swpt, x = { s.swaptab a.smi with
          st_ucnt := some (List.replicate a.i.toNat 0), st_next := 0, indel := false } := ⟨_, rfl⟩
      rw [← hx] at ht
      cases ht
      have huse : x.inUse = true := by rw [hx]; rfl
      have husable : x.usable = true := by rw [hx]; rfl
      have hxnpgs : x.st_npgs = a.i := by rw [hx]; exact hnpgs
      have hxdev : x.st_dev = a.dev := by rw [hx]; exact hdev
      have hfree := free_weights hnone
      -- the other calls that are in `sptalloc` are for other entries
      have hothers : ∀ b ∈ s.allocing.erase a, b.smi ≠ a.smi := by
        have hnodup := hs.apart
        rw [((perm_cons_erase ha).map Allocing.smi).nodup_iff, map_cons,
          nodup_cons] at hnodup
        exact fun b hb heq => hnodup.1 (heq ▸ mem_map_of_mem hb)
      refine ⟨?_, fun d => ?_, ?_, hs.freed_zero, ?_, ?_, hs.nextswap_lt, hs.opening_lt,
        fun b hb => ?_, ?_, hs.distinct_of (claimed_update rfl
          (fun _ hb => mem_of_mem_erase hb) (fun _ => claimed_iff.mpr (.inr ⟨a, ha, rfl⟩))
          (by rw [hx]) (by rw [hx]))⟩
      · have htotal := total_update s.swaptab x hi Swpt.pages
        have hnew : x.pages = a.i := by rw [Swpt.pages, if_pos husable, hxnpgs]
        have := hs.swapmem_eq
        have := (hfree 0).1
        show s.swapmem + (s.swaptab a.smi).st_npgs =
          total (update s.swaptab a.smi x) Swpt.pages
        omega
      · have htotal := total_update s.swaptab x hi (Swpt.on d)
        have hold := (hfree d).2.1
        have hcount := countP_erase (p := fun b => decide (b.dev = d)) ha
        have := hs.opens_eq d
        have hnew : x.on d = if a.dev = d then 1 else 0 := by
          rw [Swpt.on, hxdev]
          simp [huse]
        show s.opens d = total (update s.swaptab a.smi x) (Swpt.on d) +
          (s.allocing.erase a).countP fun b => b.dev = d
        by_cases hd : a.dev = d
        · rw [if_pos hd] at hnew
          rw [if_pos (by simpa using hd)] at hcount
          omega
        · rw [if_neg hd] at hnew
          rw [if_neg (by simpa using hd)] at hcount
          omega
      · have htotal := total_update s.swaptab x hi Swpt.one
        have hold := (hfree 0).2.2.1
        have hnew : x.one = 1 := by rw [Swpt.one, if_pos huse]
        have := hs.arrays_eq
        show ((s.arrays + 1 : ℕ) : ℤ) =
          total (update s.swaptab a.smi x) Swpt.one + s.freed.length
        omega
      · refine entry_update hs.entry fun u hu => ?_
        rw [hx] at hu ⊢
        cases hu
        refine ⟨hi, ?_, ?_, Nat.zero_le _⟩
        · show (s.swaptab a.smi).st_npgs = _
          rw [hnpgs, length_replicate]
          omega
        · show (s.swaptab a.smi).st_nfpgs = _
          rw [hnfpgs, count_replicate_self]
          omega
      · exact usable_update hs.usable fun _ => husable
      · exact (hs.filled b (mem_of_mem_erase hb)).of_ne (hothers b hb)
      · exact hs.apart.sublist ((erase_sublist).map _)
    · rw [if_neg hpos] at ht
      cases ht
  · rw [if_neg ha] at ht
    cases ht

/-! ## `swapdel` -/

omit hs in
theorem count_zero_all {u : List UInt8} (h : u.count 0 = u.length) : ∀ c ∈ u, c = 0 := by
  intro c hc
  exact (count_eq_length.mp h c hc).symm

theorem Good.swaprem (huse : (s.swaptab smi).inUse = true)
    (hindel : (s.swaptab smi).indel = true)
    (hn : (s.swaptab smi).st_nfpgs = (s.swaptab smi).st_npgs) : Good (swaprem s smi) := by
  obtain ⟨u, hu⟩ := inUse_iff.mp huse
  obtain ⟨hi, hnpgs, hnfpgs, -⟩ := hs.entry smi u hu
  have hfree : ∀ a ∈ s.allocing, a.smi ≠ smi := by
    rintro a ha rfl
    rw [(hs.filled a ha).free] at hu
    cases hu
  have hgone : ({ s.swaptab smi with st_ucnt := none } : Swpt).st_ucnt = none := rfl
  obtain ⟨x, hx⟩ : ∃ x : Swpt, x = { s.swaptab smi with st_ucnt := none } := ⟨_, rfl⟩
  rw [← hx] at hgone
  have hnew := free_weights hgone
  have hold : (s.swaptab smi).pages = 0 := by simp [Swpt.pages, Swpt.usable, hindel]
  unfold SwapAdm.swaprem
  dsimp only
  rw [← hx]
  refine ⟨?_, fun d => ?_, ?_, fun a ha => ?_, ?_, ?_, hs.nextswap_lt, hs.opening_lt,
    fun a ha => (hs.filled a ha).of_ne (hfree a ha), hs.apart, hs.distinct_of (claimed_update rfl
      (fun _ hb => hb) (fun _ => claimed_iff.mpr (.inl huse)) (by rw [hx]) (by rw [hx]))⟩
  · show s.swapmem = total (update s.swaptab smi x) Swpt.pages
    rw [total_same hi (by rw [hold, (hnew 0).1])]
    exact hs.swapmem_eq
  · have htotal := total_update s.swaptab x hi (Swpt.on d)
    have := (hnew d).2.1
    have hon : (s.swaptab smi).on d = if (s.swaptab smi).st_dev = d then 1 else 0 := by
      simp [Swpt.on, huse]
    have := hs.opens_eq d
    dsimp only
    by_cases hd : (s.swaptab smi).st_dev = d
    · rw [if_pos hd] at hon
      rw [hd, update_self]
      omega
    · rw [if_neg hd] at hon
      rw [update_of_ne (Ne.symm hd)]
      omega
  · have htotal := total_update s.swaptab x hi Swpt.one
    have := (hnew 0).2.2.1
    have hone : (s.swaptab smi).one = 1 := by rw [Swpt.one, if_pos huse]
    have := hs.arrays_eq
    dsimp only
    rw [length_append, length_singleton]
    push_cast
    omega
  · rcases mem_append.mp ha with ha | ha
    · exact hs.freed_zero a ha
    · rw [mem_singleton.mp ha]
      exact ⟨u, hu, count_zero_all (by omega)⟩
  · refine entry_update hs.entry fun v hv => ?_
    rw [hgone] at hv
    cases hv
  · refine usable_update hs.usable fun huse => ?_
    simp [Swpt.usable, hindel] at huse

theorem Good.swapdelTurn
    (huse : (s.swaptab smi).st_nfpgs = (s.swaptab smi).st_npgs →
      (s.swaptab smi).indel = true → (s.swaptab smi).inUse = true) :
    Good (swapdelTurn s smi) := by
  unfold SwapAdm.swapdelTurn
  dsimp only
  split
  · exact ⟨hs.swapmem_eq, hs.opens_eq, hs.arrays_eq, hs.freed_zero, hs.entry, hs.usable,
      hs.nextswap_lt, hs.opening_lt, hs.filled, hs.apart, hs.distinct⟩
  · by_cases hrem : (s.swaptab smi).st_nfpgs = (s.swaptab smi).st_npgs ∧
        (s.swaptab smi).indel = true
    · rw [if_pos hrem]
      exact hs.swaprem (huse hrem.1 hrem.2) hrem.2 hrem.1
    · rw [if_neg hrem]
      exact hs

/-- A file is marked while another one can be used. -/
theorem Good.mark (huse : (s.swaptab smi).usable = true)
    (hother : ∃ j, j < MSFILES ∧ j ≠ smi ∧ (s.swaptab j).usable = true) :
    Good { s with
      swaptab := update s.swaptab smi { s.swaptab smi with indel := true }
      swapmem := s.swapmem - (s.swaptab smi).st_npgs } := by
  obtain ⟨u, hu⟩ := inUse_iff.mp (Bool.and_eq_true_iff.mp huse).1
  have hi := (hs.entry smi u hu).lt
  have hfree : ∀ a ∈ s.allocing, a.smi ≠ smi := by
    rintro a ha rfl
    rw [(hs.filled a ha).free] at hu
    cases hu
  refine ⟨?_, fun d => ?_, ?_, hs.freed_zero, ?_, ?_, hs.nextswap_lt, hs.opening_lt,
    fun a ha => (hs.filled a ha).of_ne (hfree a ha), hs.apart, hs.distinct_of (claimed_update rfl
      (fun _ hb => hb) (fun _ => claimed_iff.mpr (.inl (Bool.and_eq_true_iff.mp huse).1)) rfl rfl)⟩
  · have htotal := total_update s.swaptab { s.swaptab smi with indel := true } hi Swpt.pages
    have hold : (s.swaptab smi).pages = (s.swaptab smi).st_npgs := by
      rw [Swpt.pages, if_pos huse]
    have hnew : Swpt.pages { s.swaptab smi with indel := true } = 0 := by
      simp [Swpt.pages, Swpt.usable]
    have := hs.swapmem_eq
    show s.swapmem - (s.swaptab smi).st_npgs =
      total (update s.swaptab smi { s.swaptab smi with indel := true }) Swpt.pages
    omega
  · show s.opens d = _
    rw [total_same hi (by rfl)]
    exact hs.opens_eq d
  · show (s.arrays : ℤ) = _
    rw [total_same hi (by rfl)]
    exact hs.arrays_eq
  · refine entry_update hs.entry fun v hv => ?_
    obtain ⟨h1, h2, h3, h4⟩ := hs.entry smi v hv
    exact ⟨h1, h2, h3, h4⟩
  · obtain ⟨j, hj, hne, husej⟩ := hother
    refine ⟨j, hj, ?_⟩
    dsimp only
    rwa [update_of_ne hne]

theorem Good.swapdel {t_minasmem rest lowblk : ℤ} {dev : ℕ} :
    Good (swapdel t_minasmem s dev lowblk rest).2 := by
  unfold SwapAdm.swapdel
  dsimp only
  generalize hfound : (((List.range MSFILES).filter fun i =>
    (s.swaptab i).named dev lowblk).getLast?) = found
  cases found with
  | none => exact hs
  | some smi =>
    have hmem := mem_of_getLast? hfound
    have hnamed := (mem_filter.mp hmem).2
    have huse := named_inUse hnamed
    dsimp only
    by_cases hok : (List.range MSFILES).countP (fun i =>
        (s.swaptab i).usable && !(s.swaptab i).named dev lowblk) = 0
    · rw [if_pos hok]
      exact hs
    · rw [if_neg hok]
      obtain ⟨j, hj, hother⟩ := countP_pos_iff.mp (Nat.pos_of_ne_zero hok)
      rw [Bool.and_eq_true, Bool.not_eq_true'] at hother
      have hne : j ≠ smi := by
        rintro rfl
        rw [hnamed] at hother
        exact Bool.noConfusion hother.2
      by_cases hindel : ¬ (s.swaptab smi).indel = true
      · rw [if_pos hindel]
        by_cases hfew : rest + s.swapmem - (s.swaptab smi).st_npgs < t_minasmem
        · rw [if_pos hfew]
          exact hs
        · rw [if_neg hfew]
          have husable : (s.swaptab smi).usable = true := by
            simp [Swpt.usable, huse, hindel]
          have hmark := hs.mark husable ⟨j, mem_range.mp hj, hne, hother.1⟩
          refine hmark.swapdelTurn fun _ _ => ?_
          dsimp only
          rw [update_self]
          exact huse
      · rw [if_neg hindel]
        exact hs.swapdelTurn fun _ _ => huse

/-! ## The other calls -/

omit hs in
theorem files_some {f : SwapFile} (h : s.files.swaptab smi = some f) :
    ∃ u, (s.swaptab smi).st_ucnt = some u ∧
      f = ⟨(s.swaptab smi).indel, u, (s.swaptab smi).st_next, (s.swaptab smi).st_swplo,
        (s.swaptab smi).st_nfpgs⟩ := by
  obtain ⟨u, hu, rfl⟩ := map_eq_some_iff.mp h
  exact ⟨u, hu, rfl⟩

omit hs in
theorem files_usable (h : (s.swaptab smi).usable = true) :
    ∃ f, s.files.swaptab smi = some f ∧ f.indel = false := by
  obtain ⟨huse, hindel⟩ := Bool.and_eq_true_iff.mp h
  obtain ⟨u, hu⟩ := inUse_iff.mp huse
  refine ⟨⟨(s.swaptab smi).indel, u, (s.swaptab smi).st_next, (s.swaptab smi).st_swplo,
    (s.swaptab smi).st_nfpgs⟩, ?_, ?_⟩
  · simp only [Adm.files, hu, map_some]
  · simpa using hindel

theorem Good.tabOk : TabOk s.files := by
  refine ⟨⟨fun smi f hf => ?_, ?_⟩, hs.nextswap_lt⟩
  · obtain ⟨u, hu, rfl⟩ := files_some hf
    obtain ⟨-, -, hnfpgs, hnext⟩ := hs.entry smi u hu
    exact ⟨hnfpgs, hnext⟩
  · obtain ⟨smi, hi, huse⟩ := hs.usable
    exact ⟨smi, hi, files_usable huse⟩

omit hs in
/-- An entry after a call: it is in use as before, and only its counts have changed. -/
theorem put_cases {t : SwapTab} (halike : Alike s.files.swaptab t.swaptab) (smi : ℕ) :
    ((s.swaptab smi).st_ucnt = none ∧ (s.put t).swaptab smi = s.swaptab smi) ∨
      ∃ u f, (s.swaptab smi).st_ucnt = some u ∧ t.swaptab smi = some f ∧
        f.ucnt.length = u.length ∧ (s.put t).swaptab smi =
          { s.swaptab smi with st_ucnt := some f.ucnt, st_next := f.next, st_nfpgs := f.nfpgs } := by
  have hkey := halike smi
  cases hu : (s.swaptab smi).st_ucnt with
  | none =>
    have hnone : s.files.swaptab smi = none := by simp only [Adm.files, hu, map_none]
    rw [hnone] at hkey
    have ht : t.swaptab smi = none := map_eq_none_iff.mp hkey
    exact .inl ⟨rfl, by simp only [Adm.put, ht, Swpt.put]⟩
  | some u =>
    have hsome : s.files.swaptab smi = some ⟨(s.swaptab smi).indel, u, (s.swaptab smi).st_next,
        (s.swaptab smi).st_swplo, (s.swaptab smi).st_nfpgs⟩ := by
      simp only [Adm.files, hu, map_some]
    rw [hsome] at hkey
    obtain ⟨f, hf, hfkey⟩ := map_eq_some_iff.mp hkey
    refine .inr ⟨u, f, rfl, hf, ?_, by simp only [Adm.put, hf, Swpt.put]⟩
    exact congrArg (fun k => k.2.2) hfkey

theorem Good.put {t : SwapTab} (ht : TabOk t)
    (halike : Alike s.files.swaptab t.swaptab) : Good (s.put t) := by
  have hcases := put_cases halike
  have hsame : ∀ smi, ((s.put t).swaptab smi).inUse = (s.swaptab smi).inUse ∧
      ((s.put t).swaptab smi).indel = (s.swaptab smi).indel ∧
      ((s.put t).swaptab smi).st_dev = (s.swaptab smi).st_dev ∧
      ((s.put t).swaptab smi).st_npgs = (s.swaptab smi).st_npgs ∧
      ((s.put t).swaptab smi).st_swplo = (s.swaptab smi).st_swplo := by
    intro smi
    rcases hcases smi with ⟨-, heq⟩ | ⟨u, f, hu, -, -, heq⟩
    · rw [heq]
      exact ⟨rfl, rfl, rfl, rfl, rfl⟩
    · rw [heq]
      exact ⟨by simp [Swpt.inUse, hu], rfl, rfl, rfl, rfl⟩
  have husable : ∀ smi, ((s.put t).swaptab smi).usable = (s.swaptab smi).usable := by
    intro smi
    rw [Swpt.usable, Swpt.usable, (hsame smi).1, (hsame smi).2.1]
  refine ⟨?_, fun d => ?_, ?_, hs.freed_zero, fun smi v hv => ?_, ?_, ht.nextswap_lt,
    hs.opening_lt, fun a ha => ?_, hs.apart, hs.distinct_of fun i hi => ?_⟩
  · rw [total_congr fun smi => show ((s.put t).swaptab smi).pages = (s.swaptab smi).pages by
      rw [Swpt.pages, Swpt.pages, husable, (hsame smi).2.2.2.1]]
    exact hs.swapmem_eq
  · rw [total_congr fun smi => show ((s.put t).swaptab smi).on d = (s.swaptab smi).on d by
      rw [Swpt.on, Swpt.on, (hsame smi).1, (hsame smi).2.2.1]]
    exact hs.opens_eq d
  · rw [total_congr fun smi => show ((s.put t).swaptab smi).one = (s.swaptab smi).one by
      rw [Swpt.one, Swpt.one, (hsame smi).1]]
    exact hs.arrays_eq
  · rcases hcases smi with ⟨hu, heq⟩ | ⟨u, f, hu, hf, hlen, heq⟩
    · rw [heq, hu] at hv
      cases hv
    · rw [heq] at hv ⊢
      cases hv
      obtain ⟨hlt, hnpgs, -, -⟩ := hs.entry smi u hu
      obtain ⟨hnfpgs, hnext⟩ := ht.files.file smi f hf
      exact ⟨hlt, by rw [hlen]; exact hnpgs, hnfpgs, hnext⟩
  · obtain ⟨smi, hi, huse⟩ := hs.usable
    exact ⟨smi, hi, by rw [husable, huse]⟩
  · have hfilled := hs.filled a ha
    rcases hcases a.smi with ⟨-, heq⟩ | ⟨u, f, hu, -, -, -⟩
    · obtain ⟨h1, h2, h3, h4, h5⟩ := hfilled
      exact ⟨h1, by rw [heq, h2], by rw [heq, h3], by rw [heq, h4], by rw [heq, h5]⟩
    · rw [hfilled.free] at hu
      cases hu
  · refine ⟨?_, (hsame i).2.2.1, (hsame i).2.2.2.2⟩
    rcases claimed_iff.mp hi with hi | hi
    · exact claimed_iff.mpr (.inl ((hsame i).1 ▸ hi))
    · exact claimed_iff.mpr (.inr hi)

/-! ## Every run -/

/-- What one event keeps. -/
theorem Good.step {t_minasmem : ℤ} {e : AdmEvent} (he : Meets s e)
    (ht : step firstfit t_minasmem s e = some t) : Good t := by
  cases e with
  | swapadd dev lowblk nblks =>
    cases ht
    exact hs.swapadd
  | opened a ok => exact hs.opened he ht
  | alloced a ok =>
    obtain rfl : ok = true := he
    exact hs.alloced ht
  | swapdel dev lowblk rest =>
    cases ht
    exact hs.swapdel
  | turn smi =>
    unfold SwapAdm.step at ht
    dsimp only at ht
    split at ht
    · cases ht
      refine Good.swapdelTurn ?_ he
      exact ⟨hs.swapmem_eq, hs.opens_eq, hs.arrays_eq, hs.freed_zero, hs.entry, hs.usable,
        hs.nextswap_lt, hs.opening_lt, hs.filled, hs.apart, hs.distinct⟩
    · cases ht
  | call c =>
    unfold SwapAdm.step at ht
    dsimp only at ht
    split at ht
    · obtain ⟨u, hu, rfl⟩ := map_eq_some_iff.mp ht
      obtain ⟨hok, halike⟩ := step_tabOk hs.tabOk hu
      exact hs.put hok halike
    · cases ht

theorem Good.consistent : Consistent firstfit s := by
  refine ⟨hs.swapmem_eq, hs.opens_eq, hs.arrays_eq, hs.freed_zero, ?_, fun i j hi hj =>
    hs.distinct i j (claimed_iff.mpr (.inl hi)) (claimed_iff.mpr (.inl hj)), hs.usable⟩
  intro p size waitflag clup blk dbds t hsize hsw dbd hdbd
  obtain ⟨f, hf, hindel⟩ := (swalloc_spec hsize hs.tabOk hsw).2.2 blk dbds rfl dbd hdbd
  obtain ⟨u, hu, rfl⟩ := files_some hf
  simpa [Swpt.usable, Swpt.inUse, hu] using hindel

end

theorem total_booted (dev n : ℕ) (lowblk : ℤ) (f : Swpt → ℤ)
    (hf : ∀ st : Swpt, st.st_ucnt = none → f st = 0) :
    total (booted dev lowblk n).swaptab f = f ((booted dev lowblk n).swaptab 0) := by
  unfold total
  refine Finset.sum_eq_single 0 (fun i _ hi => hf _ ?_) fun h => ?_
  · show (if i = 0 then _ else _ : Swpt).st_ucnt = none
    rw [if_neg hi]
  · exact absurd (Finset.mem_range.mpr (by decide)) h

theorem booted_claimed {dev n : ℕ} {lowblk : ℤ}
    (h : (booted dev lowblk n).claimed i = true) : i = 0 := by
  by_contra hi
  simp [Adm.claimed, booted, Swpt.inUse, hi] at h

theorem booted_good (dev n : ℕ) (lowblk : ℤ) : Good (booted dev lowblk n) := by
  have hzero : (booted dev lowblk n).swaptab 0 =
    ⟨dev, false, some (List.replicate n 0), 0, lowblk, n, n⟩ := rfl
  refine ⟨?_, fun d => ?_, ?_, fun a ha => (nomatch ha), fun i u hu => ?_, ⟨0, by decide, rfl⟩,
    Nat.zero_lt_succ 15, fun a ha => (nomatch ha), fun a ha => (nomatch ha), nodup_nil,
    fun i j hi hj _ _ => by rw [booted_claimed hi, booted_claimed hj]⟩
  · rw [total_booted dev n lowblk _ fun st h => (free_weights h 0).1, hzero]
    rfl
  · rw [total_booted dev n lowblk _ fun st h => (free_weights h d).2.1, hzero]
    by_cases hd : dev = d
    · simp [booted, Swpt.on, Swpt.inUse, hd]
    · simp [booted, Swpt.on, hd, Ne.symm hd]
  · rw [total_booted dev n lowblk _ fun st h => (free_weights h 0).2.2.1, hzero]
    rfl
  · by_cases hi : i = 0
    · subst hi
      rw [hzero] at hu ⊢
      cases hu
      refine ⟨by decide, ?_, ?_, Nat.zero_le _⟩
      · rw [length_replicate]
      · rw [count_replicate_self]
    · have hnone : ((booted dev lowblk n).swaptab i).st_ucnt = none := by
        show (if i = 0 then _ else _ : Swpt).st_ucnt = none
        rw [if_neg hi]
      rw [hnone] at hu
      cases hu

/-- **The swap file table.**  From the file that `main` adds on, the table is consistent after
every run in which, when a device has been opened, no other call has claimed the entry for it
or another one for the same file, `swapadd` finds memory for the array, and no file is removed
that is not in use. -/
theorem table_run {t_minasmem lowblk : ℤ} {dev n : ℕ} {es : List AdmEvent}
    (hmeets : StepsMeet Meets (SwapAdm.step firstfit t_minasmem) (booted dev lowblk n) es)
    (ht : exec (SwapAdm.step firstfit t_minasmem) (booted dev lowblk n) es = some t) :
    Consistent firstfit t :=
  (exec_invariant (P := Good) (fun _ _ _ hs he ht => hs.step he ht) (booted_good dev n lowblk)
    hmeets ht).consistent

end good

/-! ## Runs -/

instance decidableMeets (s : Adm) : ∀ e, Decidable (Meets s e)
  | .opened a true => inferInstanceAs (Decidable (∀ i, i < MSFILES → s.claimed i = true →
      i ≠ a.smi ∧ ¬ ((s.swaptab i).st_dev = a.dev ∧ (s.swaptab i).st_swplo = a.lowblk)))
  | .opened a false => inferInstanceAs (Decidable ((s.swaptab a.smi).inUse = false))
  | .alloced _ ok => inferInstanceAs (Decidable (ok = true))
  | .turn smi => inferInstanceAs (Decidable ((s.swaptab smi).st_nfpgs = (s.swaptab smi).st_npgs →
      (s.swaptab smi).indel = true → (s.swaptab smi).inUse = true))
  | .swapadd .. => isTrue trivial
  | .swapdel .. => isTrue trivial
  | .call _ => isTrue trivial

/-- A file of one page on device 1 is added, and its page allocated. -/
def added : List AdmEvent :=
  [.swapadd 1 0 8, .opened ⟨1, 1, 0, 8⟩ true, .alloced ⟨1, 1, 1⟩ true,
    .call (.swalloc 1 1 false false), .call (.swalloc 1 1 false false)]

/-- It is deleted, and removed when its page is freed. -/
def removed : List AdmEvent :=
  added ++ [.swapdel 1 0 100, .call (.swfree1 ⟨1, 0⟩), .turn 1]

/-- The run in which a file is removed. -/
theorem table_run_removed : ∃ t, exec (step false 0) (booted 0 0 4) removed = some t ∧
    t.opens 1 = 0 ∧ Consistent false t := by
  have hrun : (exec (step false 0) (booted 0 0 4) removed).any
      (fun t => decide (t.opens 1 = 0)) = true := by decide +kernel
  obtain ⟨t, ht, hopens⟩ := (any_eq_true _ _).mp hrun
  exact ⟨t, ht, of_decide_eq_true hopens,
    table_run (stepsMeet_of_allSteps (c := fun s e => decide (Meets s e))
      (fun _ _ h => of_decide_eq_true h) (by decide +kernel)) ht⟩

/-- There is no memory for the array, and the device stays open. -/
def leftOpen : List AdmEvent :=
  [.swapadd 1 0 8, .opened ⟨1, 1, 0, 8⟩ true, .alloced ⟨1, 1, 1⟩ false]

/-- Two processes delete the file, and both remove it. -/
def closedTwice : List AdmEvent :=
  added ++ [.swapdel 1 0 100, .swapdel 1 0 100, .call (.swfree1 ⟨1, 0⟩), .turn 1, .turn 1]

/-- Two files are added in the same entry. -/
def entryLost : List AdmEvent :=
  [.swapadd 1 0 8, .swapadd 2 0 8, .opened ⟨1, 1, 0, 8⟩ true, .alloced ⟨1, 1, 1⟩ true,
    .opened ⟨1, 2, 0, 8⟩ true, .alloced ⟨1, 2, 1⟩ true]

/-- A file is added twice, since another one was removed between the two searches. -/
def addedTwice : List AdmEvent :=
  [.swapadd 1 0 8, .opened ⟨1, 1, 0, 8⟩ true, .alloced ⟨1, 1, 1⟩ true, .swapadd 2 0 8,
    .swapdel 1 0 100, .swapadd 2 0 8, .opened ⟨2, 2, 0, 8⟩ true, .alloced ⟨2, 2, 1⟩ true,
    .opened ⟨1, 2, 0, 8⟩ true, .alloced ⟨1, 2, 1⟩ true]

/-- The run does happen, and the table does not keep the law. -/
def Loses (es : List AdmEvent) : Prop :=
  ∃ t, exec (step false 0) (booted 0 0 4) es = some t ∧ ¬ Consistent false t

theorem loses_of_mem : ∀ es ∈ [leftOpen, closedTwice, entryLost, addedTwice], Loses es := by
  have hruns : ∀ es ∈ [leftOpen, closedTwice, entryLost, addedTwice],
      (exec (step false 0) (booted 0 0 4) es).any (fun t => decide (t.opens 1 ≠
        total t.swaptab (Swpt.on 1) + (t.allocing.countP fun a => a.dev = 1) ∨
          (t.swaptab 1).named 2 0 = true ∧ (t.swaptab 2).named 2 0 = true)) = true := by
    decide +kernel
  intro es hes
  obtain ⟨t, ht, hbad⟩ := (any_eq_true _ _).mp (hruns es hes)
  refine ⟨t, ht, fun hc => ?_⟩
  rcases of_decide_eq_true hbad with hopens | ⟨h1, h2⟩
  · exact hopens (hc.opens_eq 1)
  · simp only [Swpt.named, Bool.and_eq_true, decide_eq_true_eq] at h1 h2
    have := hc.distinct 1 2 h1.1 h2.1 (h1.2.1.trans h2.2.1.symm) (h1.2.2.trans h2.2.2.symm)
    omega

/-- The runs leave a device that is open or closed once too often, or a file that is in the table
twice. -/
theorem table_lost : Loses leftOpen ∧ Loses closedTwice ∧ Loses entryLost ∧ Loses addedTwice := by
  simpa only [forall_mem_cons, not_mem_nil, IsEmpty.forall_iff, implies_true, and_true]
    using loses_of_mem

end Os.SwapAdm
