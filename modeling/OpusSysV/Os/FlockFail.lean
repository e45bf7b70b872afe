import OpusSysV.Os.FlockMap

/-!
# Lock requests that fail

`Flock` has the list that a successful request leaves.  Here are the error that
`sys_reclock` returns and the list that a failing one leaves: `flckadj` releases, trims and
splits locks while it scans, and returns `ENOLCK` where `insflck` finds no free record.

* `sysReclock` — the error and the list; `sysReclock_eq_none` connects it with `reclock`.
* `LeavesHole` — the requests that lose bytes of the caller: the lock before was trimmed or
  split, and no record is left for the request.
* `scan_supplied`, `scan_quiet`, `scan_trim`, `scan_split` — the scan by the free records.
* `reclock_error_keeps` — a failing request changes nothing exactly if it leaves no hole.
-/

namespace Os

open Lib List Option

variable {me o : Owner} {b : ℤ} {ty : LockType} {l l' front rest : List Filock} {f g flp : Filock}
  {ld : Flock} {sc : Scan} {idx k : ℕ}

/-! ## The error and the list -/

/-- The errors of `sys_reclock`. -/
inductive LockErr
  | ebadf
  | einval
  | eagain
  | edeadlk
  | enolck
  | ebusy
  | eintr
  deriving DecidableEq, Repr

/-- The locks from the start of the scan on, when `flckadj` returns or leaves its loop. -/
def scanList (me : Owner) : Scan → ℕ → List Filock → List Filock
  | _, _, [] => []
  | sc, idx, flp :: rest =>
    if flp.owner = me then
      match turn me sc idx flp rest with
      | .goOn kept sc => kept.toList ++ scanList me sc (idx + kept.toList.length) rest
      | .stop locks _ => locks
      | .ret0 => flp :: rest
      | .enolck => flp :: rest
    else flp :: scanList me sc (idx + 1) rest

/-- `flckadj(lck_list, insrtp, ld)`: the error, and the list it leaves. -/
def flckadjRet (me : Owner) (frlock : ℕ) (list : List Filock) (insrtp : ℕ) (ld : Flock) :
    Option LockErr × List Filock :=
  let front := list.take (insrtp - 1)
  let back := list.drop (insrtp - 1)
  match scan me ⟨ld, insrtp, frlock⟩ (insrtp - 1) back with
  | .enolck => (some .enolck, front ++ scanList me ⟨ld, insrtp, frlock⟩ (insrtp - 1) back)
  | .ret0 locks => (none, front ++ locks)
  | .fell locks sc =>
    if sc.ld.lType = .unlck then (none, front ++ locks)
    else if sc.frlock = 0 then (some .enolck, front ++ locks)
    else (none, insertFrom (newLock me sc.ld) sc.insrtp (front ++ locks))

/-- `sys_reclock` with `SETFLCK`: the error, and the list it leaves.  A request that is
blocked ends with `wait`: `EAGAIN`, or with `SLPFLCK` what its sleep ends with where it does
not start again. -/
def sysReclock (wait : LockErr) (c : LockCall) (arg : FlockArg) (list : List Filock) :
    Option LockErr × List Filock :=
  if (arg.lType = .rdlck ∧ ¬ c.fread) ∨ (arg.lType = .wrlck ∧ ¬ c.fwrite) then (some .ebadf, list)
  else
    match lockRange c.iSize c.offset arg with
    | none => (some .einval, list)
    | some (lStart, lEnd) =>
      let lckdat : Flock := ⟨arg.lType, lStart, lEnd⟩
      match arg.lType with
      | .invalid => (some .einval, list)
      | .unlck => flckadjRet c.me c.frlock list (if list = [] then 0 else 1) lckdat
      | _ =>
        match blocked c.me list lckdat with
        | .inl _ => (some wait, list)
        | .inr insrt => flckadjRet c.me c.frlock list insrt lckdat

/-! ## The condition -/

/-- The request gets to `flckadj`, with this hint. -/
def request (c : LockCall) (arg : FlockArg) (list : List Filock) : Option (ℕ × Flock) :=
  if (arg.lType = .rdlck ∧ ¬ c.fread) ∨ (arg.lType = .wrlck ∧ ¬ c.fwrite) then none
  else
    (lockRange c.iSize c.offset arg).bind fun (lStart, lEnd) =>
      match arg.lType with
      | .invalid => none
      | .unlck => some (if list = [] then 0 else 1, ⟨arg.lType, lStart, lEnd⟩)
      | _ =>
        match blocked c.me list ⟨arg.lType, lStart, lEnd⟩ with
        | .inl _ => none
        | .inr insrt => some (insrt, ⟨arg.lType, lStart, lEnd⟩)

/-- A lock of the caller, of another type, around the request. -/
def Around (me : Owner) (ld : Flock) (h : Filock) : Prop :=
  h.owner = me ∧ ld.lType ≠ h.set.lType ∧ h.set.lStart < ld.lStart ∧ ld.lEnd < h.set.lEnd

/-- A lock of the caller, of another type, that goes on into the request and ends there. -/
def Reaching (me : Owner) (ld : Flock) (h : Filock) : Prop :=
  h.owner = me ∧ ld.lType ≠ h.set.lType ∧ h.set.lStart < ld.lStart ∧ ld.lStart ≤ h.set.lEnd ∧
    h.set.lEnd ≤ ld.lEnd

/-- A lock of the caller, of another type, that goes on behind the request. -/
def Outlasting (me : Owner) (ld : Flock) (h : Filock) : Prop :=
  h.owner = me ∧ ld.lType ≠ h.set.lType ∧ h.set.lStart ≤ ld.lEnd ∧ ld.lEnd < h.set.lEnd

/-- A lock of the caller whose record becomes free: it lies in the request, or it has its type
and meets or adjoins it. -/
def Freed (me : Owner) (ld : Flock) (h : Filock) : Prop :=
  h.owner = me ∧ (ld.lStart ≤ h.set.lStart ∧ h.set.lEnd ≤ ld.lEnd ∨
    ld.lType = h.set.lType ∧ h.set.lStart ≤ ld.lEnd + 1 ∧ ld.lStart ≤ h.set.lEnd + 1)

/-- **The requests that lose bytes.**  With one free record, the split of a lock around the
request uses it up, and none is left for the request itself; with none, a lock is trimmed for
the request, no record becomes free, and one is needed for the request or for the piece of a
lock behind it. -/
def LeavesHole (me : Owner) (frlock : ℕ) (list : List Filock) (ld : Flock) : Prop :=
  (frlock = 1 ∧ ld.lType ≠ .unlck ∧ ∃ h ∈ list, Around me ld h) ∨
    (frlock = 0 ∧ (∃ h ∈ list, Reaching me ld h) ∧ (∀ h ∈ list, ¬ Freed me ld h) ∧
      (ld.lType ≠ .unlck ∨ ∃ h ∈ list, Outlasting me ld h))

/-! ## Turns and free records -/

/-- What a turn does to the number of free records. -/
def TurnFree (sc : Scan) (flp : Filock) : Turn → Prop
  | .goOn none sc' => sc'.frlock = sc.frlock + 1
  | .goOn (some _) sc' => sc'.frlock = sc.frlock
  | .stop _ sc' =>
    (sc.ld.lEnd < flp.set.lStart ∧ (sc.ld.lType = flp.set.lType → sc.ld.lEnd + 1 < flp.set.lStart) ∧
        sc'.frlock = sc.frlock) ∨
      (sc.ld.lType = flp.set.lType ∧ sc'.frlock = sc.frlock + 1) ∨
      (0 < sc.frlock ∧ sc.ld.lStart ≤ flp.set.lStart ∧ sc'.frlock = sc.frlock) ∨
      (0 < sc.frlock ∧ flp.set.lStart < sc.ld.lStart ∧ sc.ld.lEnd < flp.set.lEnd ∧
        sc.ld.lType ≠ flp.set.lType ∧ sc'.frlock + 1 = sc.frlock)
  | .ret0 => True
  | .enolck => sc.frlock = 0 ∧ sc.ld.lType ≠ flp.set.lType ∧ flp.set.lStart ≤ sc.ld.lEnd ∧
      sc.ld.lEnd < flp.set.lEnd

theorem turn_free (hld : sc.ld.lStart ≤ sc.ld.lEnd) (me : Owner) (idx : ℕ) (rest : List Filock) :
    TurnFree sc flp (turn me sc idx flp rest) := by
  have hmeets : Meets sc.ld flp (regflck sc.ld flp) := regflck_meets hld
  rw [turn]
  generalize regflck sc.ld flp = r at hmeets
  by_cases hty : sc.ld.lType = flp.set.lType
  · cases hmeets <;> simp only [if_pos hty, TurnFree] <;> grind
  · cases hmeets <;> simp only [if_neg hty] <;> (try split_ifs) <;> simp only [TurnFree] <;> grind

/-- What the lemmas about the scan know of a lock of the caller that it comes to. -/
structure Own (me : Owner) (flp : Filock) (rest : List Filock) (sc : Scan) (idx : ℕ) : Prop where
  cases : TurnCases sc idx flp rest (turn me sc idx flp rest)
  free : TurnFree sc flp (turn me sc idx flp rest)
  range : sc.ld.lStart ≤ sc.ld.lEnd
  valid : flp.set.lStart ≤ flp.set.lEnd
  later : ∀ h ∈ rest, h.owner = me → flp.set.lEnd < h.set.lStart ∧ h.set.lStart ≤ h.set.lEnd

theorem Scanning.own (h : Scanning me front (flp :: rest) sc) (hown : flp.owner = me) :
    Own me flp rest sc front.length := by
  obtain ⟨hv, hsep, hrest⟩ := lockList_cons.1 (lockList_append.1 h.list).2.1
  exact ⟨turn_cases hown h.range hv.1 _ _, turn_free h.range _ _ _, h.range, hv.1,
    fun g hg ho => ⟨((hsep g hg).2 (hown.trans ho.symm)).1, (hrest.valid g hg).1⟩⟩

/-- The state behind a lock of the caller, where the scan goes on. -/
theorem Scanning.next {kept : Option Filock} {sc' : Scan} (h : Scanning me front (flp :: rest) sc)
    (hown : flp.owner = me) (hturn : turn me sc front.length flp rest = .goOn kept sc') :
    Scanning me (front ++ kept.toList) rest sc' := by
  have hspec := turn_spec h hown
  rw [hturn] at hspec
  exact hspec.1

/-! ## The scan by the free records -/

/-- The scan ends with a free record left. -/
def Supplied (r : Scanned) : Prop :=
  (∃ locks, r = .ret0 locks) ∨ ∃ locks sc, r = .fell locks sc ∧ 1 ≤ sc.frlock

theorem Supplied.push {r : Scanned} (h : Supplied r) (kept : List Filock) :
    Supplied (r.push kept) := by
  obtain ⟨locks, rfl⟩ | ⟨locks, sc, rfl, hf⟩ := h
  · exact .inl ⟨_, rfl⟩
  · exact .inr ⟨_, sc, rfl, hf⟩

/-- The scan ends with no free record left. -/
def NoneLeft (r : Scanned) : Prop := r = .enolck ∨ ∃ locks sc, r = .fell locks sc ∧ sc.frlock = 0

theorem Supplied.not_starved {r : Scanned} (h : Supplied r) : ¬ NoneLeft r := by
  rintro (rfl | ⟨locks, sc, rfl, hf⟩)
  · obtain ⟨locks, h⟩ | ⟨locks, sc, h, -⟩ := h <;> cases h
  · obtain ⟨locks', h⟩ | ⟨locks', sc', h, hf'⟩ := h
    · cases h
    · cases h
      omega

/-- **Enough free records**: one, or two where a lock is split. -/
theorem scan_supplied (h : Scanning me front rest sc) (hf : 1 ≤ sc.frlock)
    (hsplit : ∀ g ∈ rest, Around me sc.ld g → 2 ≤ sc.frlock) :
    Supplied (scan me sc front.length rest) := by
  induction rest generalizing front sc with
  | nil => exact .inr ⟨[], sc, rfl, hf⟩
  | cons flp rest ih =>
    rw [scan]
    split_ifs with hown
    · obtain ⟨hcases, hfree, hr, hv, hlater⟩ := h.own hown
      cases hturn : turn me sc front.length flp rest with
      | goOn kept sc' =>
        rw [hturn] at hcases hfree
        have hsc := h.next hown hturn
        have hmono : sc.frlock ≤ sc'.frlock := by
          cases kept <;> simp only [TurnFree] at hfree <;> omega
        have hstart : sc'.ld.lEnd = sc.ld.lEnd ∧ sc'.ld.lType = sc.ld.lType ∧ ∀ g ∈ rest,
            g.owner = me → g.set.lStart < sc'.ld.lStart → g.set.lStart < sc.ld.lStart := by
          cases hcases with
          | drop sc' hs he hld hins => simp [hld]
          | trim sc' cut hs hm he hty hld hins hcut => simp [hld]
          | absorbLeft sc' hs hm he hty hld hins =>
            simp only [hld, true_and]
            exact fun g hg ho hlt => by have := hlater g hg ho; omega
          | keep sc' he hty hld hins => simp [hld]
        have := ih hsc (hf.trans hmono) fun g hg h =>
          (hsplit g (mem_cons_of_mem _ hg) ⟨h.1, hstart.2.1 ▸ h.2.1,
            hstart.2.2 g hg h.1 h.2.2.1, hstart.1 ▸ h.2.2.2⟩).trans hmono
        rw [length_append] at this
        exact this.push _
      | stop locks sc' =>
        rw [hturn] at hfree
        refine .inr ⟨locks, sc', rfl, ?_⟩
        rcases hfree with ⟨-, -, h1⟩ | ⟨-, h1⟩ | ⟨-, -, h1⟩ | ⟨-, h1, h2, h3, h4⟩
        · omega
        · omega
        · omega
        · have := hsplit flp mem_cons_self ⟨hown, h3, h1, h2⟩
          omega
      | ret0 => exact .inl ⟨_, rfl⟩
      | enolck =>
        rw [hturn] at hfree
        exact absurd hfree.1 (by omega)
    · have := ih (h.pass hown) hf fun g hg => hsplit g (mem_cons_of_mem _ hg)
      rw [length_append] at this
      exact this.push _

/-- Where a lock was released or taken over, no other lock is split. -/
theorem scan_after {sc' : Scan} (h : Scanning me front rest sc') (hf : sc'.frlock = sc.frlock + 1)
    (hlater : ∀ g ∈ rest, g.owner = me → sc'.ld.lStart ≤ g.set.lStart) :
    Supplied (scan me sc' front.length rest) :=
  scan_supplied h (by omega) fun g hg ⟨ho, _, hlt, _⟩ => absurd (hlater g hg ho) (by omega)

/-- **No free record, but one becomes free**: the request has it. -/
theorem scan_freed (h : Scanning me front rest sc) (hf : sc.frlock = 0)
    (hfreed : ∃ g ∈ rest, Freed me sc.ld g) : Supplied (scan me sc front.length rest) := by
  induction rest generalizing front sc with
  | nil =>
    obtain ⟨g, hg, -⟩ := hfreed
    cases hg
  | cons flp rest ih =>
    rw [scan]
    split_ifs with hown
    · obtain ⟨hcases, hfree, hr, hv, hlater⟩ := h.own hown
      have hpass : ¬ Freed me sc.ld flp → ∃ g ∈ rest, Freed me sc.ld g := fun hn => by
        obtain ⟨g, hg, hgf⟩ := hfreed
        rcases mem_cons.1 hg with rfl | hg
        · exact absurd hgf hn
        · exact ⟨g, hg, hgf⟩
      cases hturn : turn me sc front.length flp rest with
      | goOn kept sc' =>
        rw [hturn] at hcases hfree
        have hsc := h.next hown hturn
        have hend : Supplied (scan me sc' (front ++ kept.toList).length rest) := by
          cases hcases with
          | drop sc' hs he hld hins =>
            refine scan_after hsc hfree fun g hg ho => ?_
            have := hlater g hg ho
            rw [hld]
            omega
          | trim sc' cut hs hm he hty hld hins hcut =>
            refine ih hsc (hfree.trans hf) ?_
            rw [hld]
            exact hpass fun h => h.2.elim (fun hn => by omega) fun hn => hty hn.1
          | absorbLeft sc' hs hm he hty hld hins =>
            refine scan_after hsc hfree fun g hg ho => ?_
            have := hlater g hg ho
            rw [hld]
            simp only
            omega
          | keep sc' he hty hld hins =>
            refine ih hsc (hfree.trans hf) ?_
            rw [hld]
            exact hpass fun h => h.2.elim (fun hn => by omega) fun hn => by
              have := hty hn.1
              omega
        rw [length_append] at hend
        exact hend.push _
      | stop locks sc' =>
        rw [hturn] at hfree
        refine .inr ⟨locks, sc', rfl, ?_⟩
        rcases hfree with ⟨h1, h2, -⟩ | ⟨-, h1⟩ | ⟨h1, -⟩ | ⟨h1, -⟩
        · -- the lock starts behind the request, and so do the others
          exfalso
          obtain ⟨g, hg, ho, hgf⟩ := hfreed
          rcases mem_cons.1 hg with rfl | hg
          · rcases hgf with hgf | hgf
            · omega
            · have := h2 hgf.1
              omega
          · have := hlater g hg ho
            rcases hgf with hgf | hgf <;> omega
        · omega
        · omega
        · omega
      | ret0 => exact .inl ⟨_, rfl⟩
      | enolck =>
        rw [hturn] at hfree
        obtain ⟨-, hty, hs, he⟩ := hfree
        exfalso
        obtain ⟨g, hg, ho, hgf⟩ := hfreed
        rcases mem_cons.1 hg with rfl | hg
        · rcases hgf with hgf | hgf
          · omega
          · exact hty hgf.1
        · have := hlater g hg ho
          rcases hgf with hgf | hgf <;> omega
    · obtain ⟨g, hg, hgf⟩ := hfreed
      have hg' : g ∈ rest := by
        rcases mem_cons.1 hg with rfl | hg
        · exact absurd hgf.1 hown
        · exact hg
      have := ih (h.pass hown) hf ⟨g, hg', hgf⟩
      rw [length_append] at this
      exact this.push _

/-- The scan ends with no free record and this list: by `ENOLCK` where a lock goes on behind
the request, else with the request as it was. -/
def Starved (me : Owner) (sc : Scan) (rest locks : List Filock) (r : Scanned) : Prop :=
  (r = .enolck ∧ ∃ g ∈ rest, Outlasting me sc.ld g) ∨
    (∀ g ∈ rest, ¬ Outlasting me sc.ld g) ∧
      ∃ sc', r = .fell locks sc' ∧ sc'.frlock = 0 ∧ sc'.ld = sc.ld

theorem Starved.none_left {locks : List Filock} {r : Scanned} (h : Starved me sc rest locks r) :
    NoneLeft r := by
  obtain ⟨hr, -⟩ | ⟨-, sc', hr, hf, -⟩ := h
  · exact .inl hr
  · exact .inr ⟨locks, sc', hr, hf⟩

/-- A lock that does not go on behind the request is passed. -/
theorem Starved.push {sc' : Scan} {locks : List Filock} {r : Scanned} {kept : List Filock}
    (h : Starved me sc' rest locks r) (hld : sc'.ld = sc.ld) (hflp : ¬ Outlasting me sc.ld flp) :
    Starved me sc (flp :: rest) (kept ++ locks) (r.push kept) := by
  obtain ⟨rfl, g, hg, hgo⟩ | ⟨hnone, sc'', rfl, hf, hld'⟩ := h
  · exact .inl ⟨rfl, g, mem_cons_of_mem _ hg, hld ▸ hgo⟩
  · refine .inr ⟨forall_mem_cons.2 ⟨hflp, fun g hg => hld ▸ hnone g hg⟩, sc'', rfl, hf, ?_⟩
    rw [hld', hld]

/-- **No free record, none becomes free, no lock is trimmed**: the list is as it was. -/
theorem scan_quiet (h : Scanning me front rest sc) (hf : sc.frlock = 0)
    (hfreed : ∀ g ∈ rest, ¬ Freed me sc.ld g) (hreach : ∀ g ∈ rest, ¬ Reaching me sc.ld g) :
    scanList me sc front.length rest = rest ∧
      Starved me sc rest rest (scan me sc front.length rest) := by
  induction rest generalizing front sc with
  | nil => exact ⟨rfl, .inr ⟨forall_mem_nil _, sc, rfl, hf, rfl⟩⟩
  | cons flp rest ih =>
    obtain ⟨hflpf, hfreed⟩ := forall_mem_cons.1 hfreed
    obtain ⟨hflpr, hreach⟩ := forall_mem_cons.1 hreach
    rw [scan, scanList]
    split_ifs with hown
    · obtain ⟨hcases, hfree, hr, hv, hlater⟩ := h.own hown
      cases hturn : turn me sc front.length flp rest with
      | goOn kept sc' =>
        rw [hturn] at hcases hfree
        have hsc := h.next hown hturn
        cases hcases with
        | drop sc' hs he hld hins => exact absurd ⟨hown, .inl ⟨hs, he⟩⟩ hflpf
        | trim sc' cut hs hm he hty hld hins hcut => exact absurd ⟨hown, hty, hs, hm, he⟩ hflpr
        | absorbLeft sc' hs hm he hty hld hins =>
          exact absurd ⟨hown, .inr ⟨hty, by omega, hm⟩⟩ hflpf
        | keep sc' he hty hld hins =>
          obtain ⟨h1, h2⟩ := ih hsc (hfree.trans hf) (by rwa [hld]) (by rwa [hld])
          rw [length_append] at h1 h2
          refine ⟨congrArg (flp :: ·) h1, h2.push hld fun hn => ?_⟩
          have := hn.2.2.2
          omega
      | stop locks sc' =>
        rw [hturn] at hcases hfree
        cases hcases with
        | beyond hs hty =>
          refine ⟨rfl, .inr ⟨forall_mem_cons.2 ⟨fun hn => ?_, fun g hg hn => ?_⟩, sc, rfl, hf,
            rfl⟩⟩
          · have := hn.2.2.1
            omega
          · have := hlater g hg hn.1
            have := hn.2.2.1
            omega
        | absorbRight sc' hs hm he hty hld hins =>
          exact absurd ⟨hown, .inr ⟨hty, hm, by omega⟩⟩ hflpf
        | splitOff sc' hs hm he hty hld hins =>
          exfalso
          rcases hfree with ⟨h1, -⟩ | ⟨h1, -⟩ | ⟨h1, -⟩ | ⟨h1, -⟩
          · omega
          · exact hty h1
          · omega
          · omega
        | splitBoth sc' cut hs he hty hld hins hcut =>
          exfalso
          rcases hfree with ⟨h1, -⟩ | ⟨h1, -⟩ | ⟨h1, -⟩ | ⟨h1, -⟩
          · omega
          · exact hty h1
          · omega
          · omega
      | ret0 =>
        rw [hturn] at hcases
        cases hcases with
        | inside hs he hty => exact absurd ⟨hown, .inr ⟨hty, by omega, by omega⟩⟩ hflpf
      | enolck =>
        rw [hturn] at hfree
        exact ⟨rfl, .inl ⟨rfl, flp, mem_cons_self, hown, hfree.2.1, hfree.2.2.1, hfree.2.2.2⟩⟩
    · obtain ⟨h1, h2⟩ := ih (h.pass hown) hf hfreed hreach
      rw [length_append] at h1 h2
      exact ⟨congrArg (flp :: ·) h1, h2.push rfl fun hn => hown hn.1⟩

/-- The caller has no lock on the first byte of the request. -/
def Lost (me : Owner) (ld : Flock) (l : List Filock) : Prop :=
  ∀ f ∈ l, f.owner = me → ¬ (f.set.lStart ≤ ld.lStart ∧ ld.lStart ≤ f.set.lEnd)

theorem Lost.cons (h : Lost me ld l)
    (hf : f.owner = me → ¬ (f.set.lStart ≤ ld.lStart ∧ ld.lStart ≤ f.set.lEnd)) :
    Lost me ld (f :: l) :=
  forall_mem_cons.2 ⟨hf, h⟩

/-- **No free record, none becomes free, and a lock is trimmed**: its bytes are lost. -/
theorem scan_trim (h : Scanning me front rest sc) (hf : sc.frlock = 0)
    (hfreed : ∀ g ∈ rest, ¬ Freed me sc.ld g) (hreach : ∃ g ∈ rest, Reaching me sc.ld g) :
    ∃ locks, scanList me sc front.length rest = locks ∧ Lost me sc.ld locks ∧
      Starved me sc rest locks (scan me sc front.length rest) := by
  induction rest generalizing front sc with
  | nil =>
    obtain ⟨g, hg, -⟩ := hreach
    cases hg
  | cons flp rest ih =>
    obtain ⟨hflpf, hfreed⟩ := forall_mem_cons.1 hfreed
    rw [scan, scanList]
    split_ifs with hown
    · obtain ⟨hcases, hfree, hr, hv, hlater⟩ := h.own hown
      -- the lock that is trimmed is the first one that the request meets
      have hfirst : sc.ld.lStart ≤ flp.set.lEnd → Reaching me sc.ld flp := fun hle => by
        obtain ⟨g, hg, hgr⟩ := hreach
        rcases mem_cons.1 hg with rfl | hg
        · exact hgr
        · have := hlater g hg hgr.1
          have := hgr.2.2.1
          omega
      cases hturn : turn me sc front.length flp rest with
      | goOn kept sc' =>
        rw [hturn] at hcases hfree
        have hsc := h.next hown hturn
        cases hcases with
        | drop sc' hs he hld hins => exact absurd ⟨hown, .inl ⟨hs, he⟩⟩ hflpf
        | trim sc' cut hs hm he hty hld hins hcut =>
          have hquiet : ∀ g ∈ rest, ¬ Reaching me sc'.ld g := fun g hg hn => by
            have := hlater g hg hn.1
            have := hn.2.2.1
            rw [hld] at this
            omega
          obtain ⟨h1, h2⟩ := scan_quiet hsc (hfree.trans hf) (by rwa [hld]) hquiet
          rw [length_append] at h1 h2
          refine ⟨cut :: rest, congrArg (cut :: ·) h1, Lost.cons (fun g hg ho => ?_) fun _ => ?_,
            h2.push hld fun hn => ?_⟩
          · have := hlater g hg ho
            omega
          · rw [hcut.1]
            simp only
            omega
          · have := hn.2.2.2
            omega
        | absorbLeft sc' hs hm he hty hld hins =>
          exact absurd ⟨hown, .inr ⟨hty, by omega, hm⟩⟩ hflpf
        | keep sc' he hty hld hins =>
          have hex : ∃ g ∈ rest, Reaching me sc'.ld g := by
            obtain ⟨g, hg, hgr⟩ := hreach
            rcases mem_cons.1 hg with rfl | hg
            · have := hgr.2.2.2.1
              omega
            · exact ⟨g, hg, hld ▸ hgr⟩
          obtain ⟨locks, h1, h2, h3⟩ := ih hsc (hfree.trans hf) (by rwa [hld]) hex
          rw [length_append] at h1 h3
          rw [hld] at h2
          refine ⟨flp :: locks, congrArg (flp :: ·) h1, h2.cons fun _ => by omega,
            h3.push hld fun hn => ?_⟩
          have := hn.2.2.2
          omega
      | stop locks sc' =>
        rw [hturn] at hcases hfree
        exfalso
        cases hcases with
        | beyond hs hty =>
          have := (hfirst (by omega)).2.2.1
          omega
        | absorbRight sc' hs hm he hty hld hins => exact hflpf ⟨hown, .inr ⟨hty, hm, by omega⟩⟩
        | splitOff sc' hs hm he hty hld hins =>
          have := (hfirst (by omega)).2.2.1
          omega
        | splitBoth sc' cut hs he hty hld hins hcut =>
          have := (hfirst (by omega)).2.2.2.2
          omega
      | ret0 =>
        rw [hturn] at hcases
        cases hcases with
        | inside hs he hty => exact absurd ⟨hown, .inr ⟨hty, by omega, by omega⟩⟩ hflpf
      | enolck =>
        rw [hturn] at hfree
        obtain ⟨-, hty, hs, he⟩ := hfree
        have := (hfirst (by omega)).2.2.2.2
        omega
    · have hex : ∃ g ∈ rest, Reaching me sc.ld g := by
        obtain ⟨g, hg, hgr⟩ := hreach
        rcases mem_cons.1 hg with rfl | hg
        · exact absurd hgr.1 hown
        · exact ⟨g, hg, hgr⟩
      obtain ⟨locks, h1, h2, h3⟩ := ih (h.pass hown) hf hfreed hex
      rw [length_append] at h1 h3
      exact ⟨flp :: locks, congrArg (flp :: ·) h1, h2.cons fun ho => absurd ho hown,
        h3.push rfl fun hn => hown hn.1⟩

/-- **One free record and a lock around the request**: the split uses it up. -/
theorem scan_split (h : Scanning me front rest sc) (hf : sc.frlock = 1)
    (haround : ∃ g ∈ rest, Around me sc.ld g) :
    ∃ locks sc', scan me sc front.length rest = .fell locks sc' ∧ sc'.frlock = 0 ∧ sc'.ld = sc.ld ∧
      Lost me sc.ld locks := by
  induction rest generalizing front sc with
  | nil =>
    obtain ⟨g, hg, -⟩ := haround
    cases hg
  | cons flp rest ih =>
    rw [scan]
    split_ifs with hown
    · obtain ⟨hcases, hfree, hr, hv, hlater⟩ := h.own hown
      have hfirst : sc.ld.lStart ≤ flp.set.lEnd + 1 → Around me sc.ld flp := fun hle => by
        obtain ⟨g, hg, hga⟩ := haround
        rcases mem_cons.1 hg with rfl | hg
        · exact hga
        · have := hlater g hg hga.1
          have := hga.2.2.1
          omega
      cases hturn : turn me sc front.length flp rest with
      | goOn kept sc' =>
        rw [hturn] at hcases hfree
        have hsc := h.next hown hturn
        cases hcases with
        | drop sc' hs he hld hins =>
          have := (hfirst (by omega)).2.2.1
          omega
        | trim sc' cut hs hm he hty hld hins hcut =>
          have := (hfirst (by omega)).2.2.2
          omega
        | absorbLeft sc' hs hm he hty hld hins => exact absurd hty (hfirst hm).2.1
        | keep sc' he hty hld hins =>
          have hex : ∃ g ∈ rest, Around me sc'.ld g := by
            obtain ⟨g, hg, hga⟩ := haround
            rcases mem_cons.1 hg with rfl | hg
            · have := hga.2.2.2
              omega
            · exact ⟨g, hg, hld ▸ hga⟩
          obtain ⟨locks, sc'', h1, h2, h3, h4⟩ := ih hsc (hfree.trans hf) hex
          rw [length_append] at h1
          refine ⟨flp :: locks, sc'', congrArg (Scanned.push [flp]) h1, h2, h3.trans hld, ?_⟩
          rw [hld] at h4
          exact h4.cons fun _ => by omega
      | stop locks sc' =>
        rw [hturn] at hcases hfree
        cases hcases with
        | beyond hs hty =>
          have := (hfirst (by omega)).2.2.1
          omega
        | absorbRight sc' hs hm he hty hld hins =>
          have := (hfirst (by omega)).2.2.1
          omega
        | splitOff sc' hs hm he hty hld hins =>
          have := (hfirst (by omega)).2.2.1
          omega
        | splitBoth sc' cut hs he hty hld hins hcut =>
          refine ⟨_, sc', rfl, ?_, hld, Lost.cons (fun g hg ho => ?_) fun _ => ?_⟩
          · rcases hfree with ⟨h1, -⟩ | ⟨h1, -⟩ | ⟨-, h1, -⟩ | ⟨-, -, -, -, h1⟩
            · omega
            · exact absurd h1 hty
            · omega
            · omega
          · rcases mem_insertWalk.1 hg with rfl | hg
            · simp only [newLock]
              omega
            · have := hlater g hg ho
              omega
          · rw [hcut.1]
            simp only
            omega
      | ret0 =>
        rw [hturn] at hcases
        cases hcases with
        | inside hs he hty => exact absurd hty (hfirst (by omega)).2.1
      | enolck =>
        rw [hturn] at hfree
        exact absurd hfree.1 (by omega)
    · have hex : ∃ g ∈ rest, Around me sc.ld g := by
        obtain ⟨g, hg, hga⟩ := haround
        rcases mem_cons.1 hg with rfl | hg
        · exact absurd hga.1 hown
        · exact ⟨g, hg, hga⟩
      obtain ⟨locks, sc', h1, h2, h3, h4⟩ := ih (h.pass hown) hf hex
      rw [length_append] at h1
      exact ⟨flp :: locks, sc', congrArg (Scanned.push [flp]) h1, h2, h3,
        h4.cons fun ho => absurd ho hown⟩

/-! ## The request -/

/-- The list locks the same bytes for the same owners. -/
def SameBytes (l l' : List Filock) : Prop := ∀ o b ty, Holds l' o b ty ↔ Holds l o b ty

/-- What an error leaves. -/
def Keeps (l : List Filock) (r : Option LockErr × List Filock) : Prop :=
  r.1 ≠ none → SameBytes l r.2

/-- The caller's locks that the scan does not come to do not matter. -/
theorem Scanning.front_clear (h : Scanning me front rest sc) (hf : f ∈ front) :
    ¬ Around me sc.ld f ∧ ¬ Reaching me sc.ld f ∧ ¬ Outlasting me sc.ld f ∧ ¬ Freed me sc.ld f := by
  have hr := h.range
  have hv := (h.list.valid f (mem_append_left _ hf)).1
  refine ⟨fun hn => ?_, fun hn => ?_, fun hn => ?_, fun hn => ?_⟩
  · have := (h.behind f hf hn.1).1
    have := hn.2.2.2
    omega
  · have := (h.behind f hf hn.1).1
    have := hn.2.2.2.1
    omega
  · have := (h.behind f hf hn.1).1
    have := hn.2.2.2
    omega
  · obtain ⟨h1, h2⟩ := h.behind f hf hn.1
    rcases hn.2 with hn | hn
    · omega
    · have := h2 hn.1
      omega

theorem exists_append {P : Filock → Prop} (h : ∀ f ∈ front, ¬ P f) :
    (∃ f ∈ front ++ rest, P f) ↔ ∃ f ∈ rest, P f := by
  constructor
  · rintro ⟨f, hf, hp⟩
    rcases mem_append.1 hf with hf | hf
    · exact absurd hp (h f hf)
    · exact ⟨f, hf, hp⟩
  · rintro ⟨f, hf, hp⟩
    exact ⟨f, mem_append_right _ hf, hp⟩

/-- A byte that a lock held and that is lost. -/
theorem not_sameBytes {locks : List Filock} (h : Scanning me front rest sc)
    (hlost : Lost me sc.ld locks) (hg : g ∈ rest) (ho : g.owner = me)
    (hs : g.set.lStart ≤ sc.ld.lStart) (he : sc.ld.lStart ≤ g.set.lEnd) : ¬ SameBytes (front ++ rest) (front ++ locks) := by
  intro hsame
  have hold : Holds (front ++ rest) me sc.ld.lStart g.set.lType :=
    ⟨g, mem_append_right _ hg, ho, rfl, hs, he⟩
  obtain ⟨f, hf, hfo, -, h1, h2⟩ := (hsame _ _ _).2 hold
  rcases mem_append.1 hf with hf | hf
  · have := (h.behind f hf hfo).1
    omega
  · exact hlost f hf hfo ⟨h1, h2⟩

/-- `flckadj` from a scan that can start. -/
theorem flckadjRet_keeps {frlock : ℕ}
    (h : Scanning me (l.take (k - 1)) (l.drop (k - 1)) ⟨ld, k, frlock⟩) (hk : k - 1 ≤ l.length) :
    Keeps l (flckadjRet me frlock l k ld) ↔ ¬ LeavesHole me frlock l ld := by
  obtain ⟨front, back, hl, hfront, hback, hlen⟩ : ∃ front back, l = front ++ back ∧
      l.take (k - 1) = front ∧ l.drop (k - 1) = back ∧ front.length = k - 1 :=
    ⟨_, _, (take_append_drop (k - 1) l).symm, rfl, rfl, by rw [length_take]; omega⟩
  have hclear := fun f (hf : f ∈ front) => h.front_clear (hfront ▸ hf)
  have hhole : LeavesHole me frlock l ld ↔ LeavesHole me frlock back ld := by
    unfold LeavesHole
    have hnot : (∀ g ∈ l, ¬ Freed me ld g) ↔ ∀ g ∈ back, ¬ Freed me ld g := by
      have : (∃ g ∈ front ++ back, Freed me ld g) ↔ ∃ g ∈ back, Freed me ld g :=
        exists_append fun f hf => (hclear f hf).2.2.2
      rw [← hl] at this
      simpa using not_congr this
    rw [hnot, hl, exists_append fun f hf => (hclear f hf).1,
      exists_append fun f hf => (hclear f hf).2.1,
      exists_append fun f hf => (hclear f hf).2.2.1]
  rw [hhole]
  rw [hfront, hback] at h
  unfold Keeps flckadjRet
  dsimp only
  rw [hfront, hback, ← hlen]
  by_cases hsup : Supplied (scan me ⟨ld, k, frlock⟩ front.length back)
  · -- the request gets its record
    refine iff_of_true (fun hne => absurd ?_ hne) ?_
    · obtain ⟨locks, hscan⟩ | ⟨locks, sc', hscan, hf⟩ := hsup
      · rw [hscan]
      · rw [hscan]
        dsimp only
        split_ifs with h1 h2
        · rfl
        · omega
        · rfl
    · rintro (⟨rfl, -, haround⟩ | ⟨rfl, hreach, hfreed, -⟩)
      · obtain ⟨locks, sc', hscan, hf, -⟩ := scan_split h rfl haround
        exact hsup.not_starved (.inr ⟨locks, sc', hscan, hf⟩)
      · obtain ⟨locks, -, -, hstarved⟩ := scan_trim h rfl hfreed hreach
        exact hsup.not_starved hstarved.none_left
  rcases Nat.lt_or_ge 1 frlock with hf | hf
  · exact absurd (scan_supplied h (by simp only; omega) fun _ _ _ => hf) hsup
  rcases Nat.lt_or_ge 0 frlock with hf' | hf'
  · obtain rfl : frlock = 1 := by omega
    by_cases haround : ∃ g ∈ back, Around me ld g
    swap
    · exact absurd (scan_supplied h le_rfl fun g hg hga => absurd ⟨g, hg, hga⟩ haround) hsup
    obtain ⟨locks, sc', hscan, hf0, hld, hlost⟩ := scan_split h rfl haround
    rw [hscan]
    dsimp only
    rw [hld]
    by_cases hty : ld.lType = .unlck
    · rw [if_pos hty]
      exact iff_of_true (fun hne => absurd rfl hne) fun hn => hn.elim (fun hn => hn.2.1 hty)
        fun hn => absurd hn.1 (by decide)
    · rw [if_neg hty, if_pos hf0]
      obtain ⟨g, hg, hga⟩ := id haround
      have hr := h.range
      refine iff_of_false (fun hsame => ?_) (not_not.2 (.inl ⟨rfl, hty, haround⟩))
      refine not_sameBytes h hlost hg hga.1 hga.2.2.1.le ?_ (hl ▸ hsame (by simp))
      have := hga.2.2.2
      simp only at hr ⊢
      omega
  obtain rfl : frlock = 0 := by omega
  by_cases hfreed : ∃ g ∈ back, Freed me ld g
  · exact absurd (scan_freed h rfl hfreed) hsup
  have hfreed : ∀ g ∈ back, ¬ Freed me ld g := fun g hg hgf => hfreed ⟨g, hg, hgf⟩
  by_cases hreach : ∃ g ∈ back, Reaching me ld g
  · obtain ⟨locks, hlist, hlost, hstarved⟩ := scan_trim h rfl hfreed hreach
    obtain ⟨g, hg, hgr⟩ := id hreach
    have hnot : ¬ SameBytes l (front ++ locks) := by
      rw [hl]
      exact not_sameBytes h hlost hg hgr.1 hgr.2.2.1.le hgr.2.2.2.1
    obtain ⟨hscan, hout⟩ | ⟨hout, sc', hscan, hf0, hld⟩ := hstarved
    · rw [hscan, hlist]
      exact iff_of_false (fun hsame => hnot (hsame (by simp)))
        (not_not.2 (.inr ⟨rfl, hreach, hfreed, .inr hout⟩))
    · rw [hscan]
      dsimp only
      rw [hld]
      by_cases hty : ld.lType = .unlck
      · rw [if_pos hty]
        refine iff_of_true (fun hne => absurd rfl hne) fun hn => ?_
        rcases hn with hn | ⟨-, -, -, hn | ⟨g, hg, hgo⟩⟩
        · exact hn.2.1 hty
        · exact hn hty
        · exact hout g hg hgo
      · rw [if_neg hty, if_pos hf0]
        exact iff_of_false (fun hsame => hnot (hsame (by simp)))
          (not_not.2 (.inr ⟨rfl, hreach, hfreed, .inl hty⟩))
  · -- nothing is touched
    have hreach' : ∀ g ∈ back, ¬ Reaching me ld g := fun g hg hgr => hreach ⟨g, hg, hgr⟩
    obtain ⟨hlist, hstarved⟩ := scan_quiet h rfl hfreed hreach'
    have hsame : SameBytes l (front ++ back) := by
      rw [hl]
      exact fun _ _ _ => Iff.rfl
    refine iff_of_true (fun hne => ?_) ?_
    · obtain ⟨hscan, -⟩ | ⟨-, sc', hscan, hf0, -⟩ := hstarved
      · rw [hscan, hlist]
        exact hsame
      · rw [hscan] at hne ⊢
        dsimp only at hne ⊢
        split_ifs at hne ⊢
        · exact hsame
        · exact hsame
    · rintro (⟨h0, -⟩ | ⟨-, hr, -⟩)
      · cases h0
      · exact hreach hr

/-- A request that does not get to `flckadj` changes nothing. -/
theorem sysReclock_of_none (wait : LockErr) {c : LockCall} {arg : FlockArg}
    (h : request c arg l = none) : (sysReclock wait c arg l).2 = l := by
  unfold request at h
  unfold sysReclock
  by_cases hmode : (arg.lType = .rdlck ∧ ¬ c.fread) ∨ (arg.lType = .wrlck ∧ ¬ c.fwrite)
  · rw [if_pos hmode]
  rw [if_neg hmode] at h ⊢
  cases hr : lockRange c.iSize c.offset arg with
  | none => rfl
  | some r =>
    rw [hr, bind_some] at h
    cases hty : arg.lType with
    | invalid => rfl
    | unlck =>
      rw [hty] at h
      cases h
    | rdlck | wrlck =>
      rw [hty] at h
      dsimp only at h ⊢
      cases hb : blocked c.me l ⟨_, r.1, r.2⟩ with
      | inl g => rfl
      | inr k => rw [hb] at h; cases h

/-- A request that gets there is that of `flckadj`, whose scan can start. -/
theorem sysReclock_of_some (wait : LockErr) {c : LockCall} {arg : FlockArg} (hl : LockList l)
    (h : request c arg l = some (k, ld)) :
    sysReclock wait c arg l = flckadjRet c.me c.frlock l k ld ∧ k - 1 ≤ l.length ∧
      Scanning c.me (l.take (k - 1)) (l.drop (k - 1)) ⟨ld, k, c.frlock⟩ := by
  unfold request at h
  unfold sysReclock
  by_cases hmode : (arg.lType = .rdlck ∧ ¬ c.fread) ∨ (arg.lType = .wrlck ∧ ¬ c.fwrite)
  · rw [if_pos hmode] at h
    cases h
  rw [if_neg hmode] at h ⊢
  cases hr : lockRange c.iSize c.offset arg with
  | none => rw [hr] at h; cases h
  | some r =>
    rw [hr, bind_some] at h
    obtain ⟨-, -, -, hle⟩ := lockRange_eq (s := r.1) (t := r.2) hr
    have hfit : Fit c.me l k ld → k - 1 ≤ l.length ∧
        Scanning c.me (l.take (k - 1)) (l.drop (k - 1)) ⟨ld, k, c.frlock⟩ := fun hf =>
      ⟨hf.le, hf.scanning _⟩
    cases hty : arg.lType with
    | invalid =>
      rw [hty] at h
      cases h
    | unlck =>
      rw [hty] at h
      obtain ⟨rfl, rfl⟩ := Prod.mk.inj (Option.some.inj h)
      exact ⟨rfl, hfit (fit_unlck hl hle rfl)⟩
    | rdlck | wrlck =>
      rw [hty] at h
      dsimp only at h ⊢
      cases hb : blocked c.me l ⟨_, r.1, r.2⟩ with
      | inl g => rw [hb] at h; cases h
      | inr j =>
        rw [hb] at h
        obtain ⟨rfl, rfl⟩ := Prod.mk.inj (Option.some.inj h)
        exact ⟨rfl, hfit (fit_blocked hl hle (by simp) hb)⟩

/-- **A failing request changes nothing** if and only if it leaves no hole: for every lock
list, every number of free records, and every request that sets or removes a lock. -/
theorem reclock_error_keeps (wait : LockErr) (c : LockCall) (arg : FlockArg) (hl : LockList l) :
    Keeps l (sysReclock wait c arg l) ↔
      ∀ k ld, request c arg l = some (k, ld) → ¬ LeavesHole c.me c.frlock l ld := by
  cases hreq : request c arg l with
  | none =>
    refine iff_of_true (fun _ => ?_) fun k ld h => by cases h
    rw [sysReclock_of_none wait hreq]
    exact fun _ _ _ => Iff.rfl
  | some r =>
    obtain ⟨k, ld⟩ := r
    obtain ⟨heq, hk, hsc⟩ := sysReclock_of_some wait hl hreq
    rw [heq, flckadjRet_keeps hsc hk]
    constructor
    · rintro h k' ld' hr
      cases hr
      exact h
    · exact fun h => h k ld rfl

/-- One write lock, and a call by its owner with `n` free records. -/
def oneLock : List Filock := [⟨⟨.wrlck, 0, 50⟩, ⟨7, 0⟩, 0⟩]

def callWith (n : ℕ) : LockCall := { lockCall 7 with frlock := n }

theorem oneLock_lockList : LockList oneLock :=
  ⟨fun f hf => by obtain rfl := mem_singleton.1 hf; exact ⟨by decide, .inr rfl⟩,
    pairwise_singleton ..⟩

/-- Without a free record the lock around a request is not split, and nothing changes. -/
theorem reclock_error_keeps_none :
    Keeps oneLock (sysReclock .eagain (callWith 0) (lockArg .rdlck 10 10) oneLock) ↔
      ∀ k ld, request (callWith 0) (lockArg .rdlck 10 10) oneLock = some (k, ld) →
        ¬ LeavesHole (callWith 0).me (callWith 0).frlock oneLock ld :=
  reclock_error_keeps .eagain (callWith 0) (lockArg .rdlck 10 10) oneLock_lockList

/-- With one free record a read lock inside a write lock fails, and the bytes between are
locked no more. -/
theorem reclock_loses_bytes :
    ¬ ∀ (wait : LockErr) (c : LockCall) (arg : FlockArg) (l : List Filock),
      LockList l → Keeps l (sysReclock wait c arg l) := by
  intro hall
  have hkeep := hall .eagain (callWith 1) (lockArg .rdlck 10 10) oneLock oneLock_lockList
  have hold : Holds oneLock ⟨7, 0⟩ 15 .wrlck :=
    ⟨_, mem_singleton_self _, rfl, rfl, by decide, by decide⟩
  obtain ⟨f, hf, -, -, h1, h2⟩ := (hkeep (by decide) _ _ _).2 hold
  have hlist : (sysReclock .eagain (callWith 1) (lockArg .rdlck 10 10) oneLock).2 =
      [⟨⟨.wrlck, 0, 9⟩, ⟨7, 0⟩, 0⟩, ⟨⟨.wrlck, 20, 50⟩, ⟨7, 0⟩, 0⟩] := by decide
  rw [hlist] at hf
  rcases mem_cons.1 hf with rfl | hf
  · exact absurd h2 (by decide)
  · obtain rfl := mem_singleton.1 hf
    exact absurd h1 (by decide)

end Os
