import OpusSysV.Lib.Run
import OpusSysV.Os.FlockScan

/-!
# Record locks as a byte map

What record locks are for: each owner has on each byte of the file no lock, a read
lock or a write lock, and a byte that two owners have locked is read-locked by both.
`lockList_refines` shows that the lock list of `os/flock.c` keeps such a map, over
every run of successful calls.

* `blocked_spec` — what `blocked` finds out, and that its hint suits the scan.
* `Refines` — the relation between a lock list and a byte map.
-/

namespace Os

open Lib List Option

variable {me o : Owner} {b : ℤ} {ty : LockType} {l l' front rest rest' : List Filock}
  {f : Filock} {ld : Flock} {k : ℕ}

/-! ## `blocked` -/

/-- A lock that `blocked` has passed. -/
def Passed (me : Owner) (ld : Flock) (f : Filock) : Prop :=
  f.set.lStart < ld.lStart ∧ (f.owner = me → f.set.lEnd + 1 < ld.lStart) ∧
    (f.owner ≠ me → ld.lStart ≤ f.set.lEnd → conflicts f ld.lType = false)

/-- The hint `k` suits the request: it is a place for it, and the caller's locks before
the one pointed to neither meet nor adjoin it. -/
def Hint (me : Owner) (ld : Flock) (l : List Filock) (k : ℕ) : Prop :=
  k ≤ l.length ∧ Place l k ld.lStart ∧
    ∀ f ∈ l.take (k - 1), f.owner = me → f.set.lEnd + 1 < ld.lStart

theorem blockedLow_spec (hl : LockList (front ++ rest)) (hfront : ∀ f ∈ front, Passed me ld f)
    (h : blockedLow me ld front.length rest = .inr (k, rest')) :
    Hint me ld (front ++ rest) k ∧
      ∃ front', front ++ rest = front' ++ rest' ∧ ∀ f ∈ front', Passed me ld f := by
  have hstart : ∀ f ∈ front, f.set.lStart ≤ ld.lStart := fun f hf => (hfront f hf).1.le
  have hown : ∀ n, ∀ f ∈ front.take n, f.owner = me → f.set.lEnd + 1 < ld.lStart := fun n f hf =>
    (hfront f (mem_of_mem_take hf)).2.1
  induction rest generalizing front with
  | nil =>
    rw [blockedLow] at h
    cases h
    refine ⟨⟨by simp, place_length hstart (by simp), ?_⟩, front, rfl, hfront⟩
    rw [append_nil]
    exact hown _
  | cons f rest ih =>
    have hnext : ∀ hf : Passed me ld f, blockedLow me ld (front.length + 1) rest =
        .inr (k, rest') → Hint me ld (front ++ f :: rest) k ∧
          ∃ front', front ++ f :: rest = front' ++ rest' ∧ ∀ f ∈ front', Passed me ld f := by
      intro hf hb
      have hpass : ∀ g ∈ front ++ [f], Passed me ld g := fun g hg => by
        rcases mem_append.mp hg with hg | hg
        · exact hfront g hg
        · rw [mem_singleton.mp hg]; exact hf
      have := @ih (front ++ [f]) (by simpa using hl) hpass (by simpa using hb)
        (fun g hg => (hpass g hg).1.le) fun n g hg => (hpass g (mem_of_mem_take hg)).2.1
      simpa using this
    rw [blockedLow] at h
    by_cases hlt : f.set.lStart < ld.lStart
    · rw [if_pos hlt] at h
      by_cases ho : f.owner = me
      · rw [if_pos ho] at h
        by_cases hreach : ld.lStart - 1 ≤ f.set.lEnd
        · -- an own lock that reaches the request is the hint
          rw [if_pos hreach] at h
          cases h
          refine ⟨⟨by simp, place_succ hstart hlt.le, ?_⟩, front, rfl, hfront⟩
          rw [Nat.add_sub_cancel, take_left]
          exact fun g hg => (hfront g hg).2.1
        · rw [if_neg hreach] at h
          exact hnext ⟨hlt, fun _ => by omega, fun hne => absurd ho hne⟩ h
      · rw [if_neg ho] at h
        by_cases hc : ld.lStart ≤ f.set.lEnd ∧ conflicts f ld.lType
        · rw [if_pos hc] at h
          simp at h
        · rw [if_neg hc] at h
          refine hnext ⟨hlt, fun hm => absurd hm ho, fun _ hle => ?_⟩ h
          exact Bool.eq_false_iff.mpr fun hcf => hc ⟨hle, hcf⟩
    · rw [if_neg hlt] at h
      cases h
      obtain ⟨-, hrest, -⟩ := lockList_append.mp hl
      obtain ⟨-, hsep, -⟩ := lockList_cons.mp hrest
      refine ⟨⟨by simp, place_length hstart fun g hg => ?_, ?_⟩, front, rfl, hfront⟩
      · rcases mem_cons.mp hg with rfl | hg
        · omega
        · have := (hsep g hg).1
          omega
      · rw [take_append_of_le_length (by omega)]
        exact hown _

theorem blockedHigh_spec (hl : LockList rest) (h : blockedHigh me ld rest = none) (hf : f ∈ rest)
    (ho : f.owner ≠ me) (hs : ld.lStart ≤ f.set.lEnd) (he : f.set.lStart ≤ ld.lEnd) :
    conflicts f ld.lType = false := by
  induction rest with
  | nil => simp at hf
  | cons g rest ih =>
    obtain ⟨-, hsep, hl'⟩ := lockList_cons.mp hl
    rw [blockedHigh] at h
    split_ifs at h with h1 h2
    · -- the locks are in order, so those that follow start after the request too
      rcases mem_cons.mp hf with rfl | hf
      · omega
      · have := (hsep f hf).1
        omega
    · rcases mem_cons.mp hf with rfl | hf
      · exact Bool.eq_false_iff.mpr fun hcf => h2 ⟨hs, ho, hcf⟩
      · exact ih hl' h hf

/-- **`blocked`.**  When it finds no lock in the way there is none, and its hint suits. -/
theorem blocked_spec (hl : LockList l) (h : blocked me l ld = .inr k) :
    Hint me ld l k ∧ ∀ f ∈ l, f.owner ≠ me → ld.lStart ≤ f.set.lEnd → f.set.lStart ≤ ld.lEnd →
      conflicts f ld.lType = false := by
  rw [blocked] at h
  cases hlow : blockedLow me ld 0 l with
  | inl f => rw [hlow] at h; simp at h
  | inr r =>
    obtain ⟨k', rest'⟩ := r
    rw [hlow] at h
    cases hhigh : blockedHigh me ld rest' with
    | some f => simp only [hhigh] at h; simp at h
    | none =>
      simp only [hhigh] at h
      cases h
      have hl0 : LockList ([] ++ l) := hl
      obtain ⟨hhint, front', heq, hpass⟩ := blockedLow_spec hl0 (by simp) hlow
      rw [nil_append] at hhint heq
      refine ⟨hhint, fun f hf ho hs he => ?_⟩
      rw [heq] at hf hl
      rcases mem_append.mp hf with hf | hf
      · exact (hpass f hf).2.2 ho hs
      · exact blockedHigh_spec (lockList_append.mp hl).2.1 hhigh hf ho hs he

/-- The scan can start at the hint. -/
theorem Hint.scanning {frlock : ℕ} (hl : LockList l) (hr : ld.lStart ≤ ld.lEnd)
    (h : Hint me ld l k) : Scanning me (l.take (k - 1)) (l.drop (k - 1)) ⟨ld, k, frlock⟩ := by
  obtain ⟨hk, hp, hown⟩ := h
  refine ⟨by rwa [take_append_drop], hr, fun f hf ho => ?_, fun _ => ?_⟩
  · have := hown f hf ho
    exact ⟨by simp only; omega, fun _ => this⟩
  · rw [take_append_drop, length_take]
    exact ⟨hp, by simp only; omega⟩

/-- Locks are removed from the head of the list on. -/
theorem scanning_head {frlock : ℕ} (hl : LockList l) (hr : ld.lStart ≤ ld.lEnd)
    (hk : k - 1 = 0) (hty : ld.lType = .unlck) :
    Scanning me (l.take (k - 1)) (l.drop (k - 1)) ⟨ld, k, frlock⟩ := by
  rw [hk]
  exact ⟨by simpa using hl, hr, by simp, fun hne => absurd hty hne⟩

/-! ## Byte maps -/

/-- What each owner has on each byte. -/
abbrev ByteMap := Owner → ℤ → Option LockType

/-- The owner has `ty` on the bytes from `s` to `t`, and the rest is as before. -/
def ByteMap.put (m : ByteMap) (me : Owner) (s t : ℤ) (ty : Option LockType) : ByteMap :=
  fun o b => if o = me ∧ s ≤ b ∧ b ≤ t then ty else m o b

/-- The owners given have nothing, and the rest is as before. -/
def ByteMap.clear (m : ByteMap) (p : Owner → Bool) : ByteMap :=
  fun o b => if p o then none else m o b

/-- Two owners have the same byte only if both may read it. -/
def ByteMap.Compatible (m : ByteMap) : Prop :=
  ∀ o o' b ty ty', o ≠ o' → m o b = some ty → m o' b = some ty' → ty = .rdlck ∧ ty' = .rdlck

/-- What a request of the type leaves its caller with. -/
def granted : LockType → Option LockType
  | .rdlck => some .rdlck
  | .wrlck => some .wrlck
  | _ => none

/-- What `l_start` is relative to. -/
def base (c : LockCall) (arg : FlockArg) : ℤ :=
  if arg.lWhence = 1 then c.offset else if arg.lWhence = 2 then c.iSize else 0

/-- The first byte of the requested range. -/
def requestStart (c : LockCall) (arg : FlockArg) : ℤ := long (arg.lStart + base c arg)

/-- The last byte of the requested range: a length of zero goes up to the largest one. -/
def requestEnd (c : LockCall) (arg : FlockArg) : ℤ :=
  if arg.lLen.1 = 0 then MAXEND else requestStart c arg + arg.lLen - 1

/-- The calls on the byte map. -/
def mapStep (m : ByteMap) : LockEvent → ByteMap
  | .reclock c arg => m.put c.me (requestStart c arg) (requestEnd c arg) (granted arg.lType)
  | .cleanlocks me ignPid => m.clear (cleans me ignPid)

/-- Counted from an offset or a size that is not negative, an admitted range starts where
the integers say. -/
theorem requestStart_eq {c : LockCall} {arg : FlockArg} (hbase : 0 ≤ base c arg)
    (h : 0 ≤ requestStart c arg) : requestStart c arg = arg.lStart + base c arg := by
  have hb : base c arg < 2 ^ 31 := by
    rw [base]
    split_ifs
    · exact c.offset.2.2
    · exact c.iSize.2.2
    · norm_num
  have h1 := arg.lStart.2
  rw [requestStart] at h ⊢
  by_cases hlt : arg.lStart + base c arg < 2 ^ 31
  · exact long_eq (by omega) hlt
  · rw [long_wrap (by omega) (by omega)] at h
    omega

/-- The range of an admitted request. -/
theorem lockRange_eq {c : LockCall} {arg : FlockArg} {s t : ℤ}
    (h : lockRange c.iSize c.offset arg = some (s, t)) :
    s = requestStart c arg ∧ t = requestEnd c arg ∧ 0 ≤ s ∧ s ≤ t := by
  have hstart : (if arg.lWhence = 1 then long (arg.lStart + c.offset)
      else if arg.lWhence = 2 then long (arg.lStart + c.iSize) else (arg.lStart : ℤ)) =
      requestStart c arg := by
    rw [requestStart, base]
    split_ifs
    · rfl
    · rfl
    · rw [add_zero, long_eq arg.lStart.2.1 arg.lStart.2.2]
  simp only [lockRange, hstart] at h
  split_ifs at h with h1 h2 h3 h4 h5 h6 <;> try simp at h
  · obtain ⟨rfl, rfl⟩ := h
    refine ⟨rfl, ?_, by omega, by omega⟩
    rw [requestEnd, if_pos h4]
  · obtain ⟨rfl, rfl⟩ := h
    have hle := long_range (arg.lStart + base c arg)
    have hlen := arg.lLen.2
    rw [← requestStart] at hle
    refine ⟨rfl, ?_, by omega, by omega⟩
    rw [requestEnd, if_neg h4]
    by_cases hlt : arg.lLen + (requestStart c arg - 1) < 2 ^ 31
    · rw [long_eq (by omega) hlt]
      ring
    · -- past the largest `long` the end wraps below the start
      rw [long_wrap (by omega) (by omega)] at h6
      omega

/-! ## The byte map of a list -/

/-- What a lock list says about each byte. -/
def byteMap (l : List Filock) : ByteMap := fun o b =>
  (l.find? fun f => f.owner = o ∧ f.set.lStart ≤ b ∧ b ≤ f.set.lEnd).map fun f => f.set.lType

theorem byteMap_eq_some (hl : LockList l) : byteMap l o b = some ty ↔ Holds l o b ty := by
  rw [byteMap, map_eq_some_iff]
  constructor
  · rintro ⟨f, hf, rfl⟩
    have hp := List.find?_some hf
    simp only [decide_eq_true_eq] at hp
    exact ⟨f, mem_of_find?_eq_some hf, hp.1, rfl, hp.2⟩
  · rintro hh
    obtain ⟨f, hf, rfl, hty, hb⟩ := hh
    have hex : (l.find? fun g => g.owner = f.owner ∧ g.set.lStart ≤ b ∧ b ≤ g.set.lEnd).isSome :=
      List.find?_isSome.mpr ⟨f, hf, by simpa using hb⟩
    obtain ⟨g, hg⟩ := isSome_iff_exists.mp hex
    have hp := List.find?_some hg
    simp only [decide_eq_true_eq] at hp
    refine ⟨g, hg, ?_⟩
    exact (hl.unique (mem_of_find?_eq_some hg) hp.2.1 hp.2.2
      ⟨f, hf, hp.1.symm, hty, hb⟩).symm

/-- The list keeps the map, and no two owners are in each other's way. -/
structure Refines (l : List Filock) (m : ByteMap) : Prop where
  list : LockList l
  bytes : byteMap l = m
  compatible : m.Compatible

theorem Refines.holds {m : ByteMap} (h : Refines l m) : m o b = some ty ↔ Holds l o b ty := by
  rw [← h.bytes, byteMap_eq_some h.list]

theorem byteMap_eq_of_holds {m : ByteMap} (hl : LockList l)
    (h : ∀ o b ty, Holds l o b ty ↔ m o b = some ty) : byteMap l = m := by
  funext o b
  exact Option.ext fun ty => (byteMap_eq_some hl).trans (h o b ty)

/-- The request is what `put` does to the map. -/
theorem withRequest_iff_put {m : ByteMap} (h : Refines l m) (hty : ld.lType ≠ .invalid) :
    WithRequest me ld l o b ty ↔ m.put me ld.lStart ld.lEnd (granted ld.lType) o b = some ty := by
  rw [WithRequest, ByteMap.put]
  split_ifs with hc
  · cases hld : ld.lType with
    | invalid => exact absurd hld hty
    | unlck => simp [granted]
    | rdlck => exact ⟨fun h => by rw [h.1, granted], fun h => by cases h; simp⟩
    | wrlck => exact ⟨fun h => by rw [h.1, granted], fun h => by cases h; simp⟩
  · exact h.holds.symm

/-- A range that nobody else needs alone may be given. -/
theorem ByteMap.Compatible.put {m : ByteMap} {s t : ℤ} {v : Option LockType} (h : m.Compatible)
    (hfree : ∀ o b ty ty', o ≠ me → s ≤ b → b ≤ t → m o b = some ty → v = some ty' →
      ty = .rdlck ∧ ty' = .rdlck) : (m.put me s t v).Compatible := by
  intro o o' b ty ty' hne h1 h2
  simp only [ByteMap.put] at h1 h2
  split_ifs at h1 h2 with c1 c2 c2
  · exact absurd (c1.1.trans c2.1.symm) hne
  · exact (hfree o' b ty' ty (fun ho => hne (c1.1.trans ho.symm)) c1.2.1 c1.2.2 h2 h1).symm
  · exact hfree o b ty ty' (fun ho => hne (ho.trans c2.1.symm)) c2.2.1 c2.2.2 h1 h2
  · exact h o o' b ty ty' hne h1 h2

theorem conflicts_eq_false {ty : LockType} (hv : f.Valid) (h : conflicts f ty = false)
    (hty : ty = .rdlck ∨ ty = .wrlck) : f.set.lType = .rdlck ∧ ty = .rdlck := by
  rw [conflicts] at h
  rcases hv.2 with h1 | h1 <;> rcases hty with h2 | h2 <;> simp_all

/-! ## The calls -/

/-- A request that gets to `flckadj` with the hint `k`. -/
structure Fit (me : Owner) (l : List Filock) (k : ℕ) (ld : Flock) : Prop where
  valid : ld.lType ≠ .invalid
  le : k - 1 ≤ l.length
  scanning : ∀ frlock, Scanning me (l.take (k - 1)) (l.drop (k - 1)) ⟨ld, k, frlock⟩
  free : ∀ ty, granted ld.lType = some ty → ∀ f ∈ l, f.owner ≠ me → ld.lStart ≤ f.set.lEnd →
    f.set.lStart ≤ ld.lEnd → f.set.lType = .rdlck ∧ ty = .rdlck

/-- Locks are removed. -/
theorem fit_unlck (hl : LockList l) (hr : ld.lStart ≤ ld.lEnd) (hty : ld.lType = .unlck) :
    Fit me l (if l = [] then 0 else 1) ld := by
  have hk : (if l = [] then 0 else 1) - 1 = 0 := by split_ifs <;> rfl
  exact ⟨by simp [hty], by omega, fun _ => scanning_head hl hr hk hty, fun ty h => by
    rw [hty] at h; cases h⟩

/-- A lock is set where `blocked` finds nothing in the way. -/
theorem fit_blocked (hl : LockList l) (hr : ld.lStart ≤ ld.lEnd)
    (hty : ld.lType = .rdlck ∨ ld.lType = .wrlck) (h : blocked me l ld = .inr k) :
    Fit me l k ld := by
  obtain ⟨hhint, hfree⟩ := blocked_spec hl h
  refine ⟨by rcases hty with hty | hty <;> simp [hty], by have := hhint.1; omega,
    fun _ => hhint.scanning hl hr, fun ty hg f hf ho h1 h2 => ?_⟩
  obtain ⟨h3, h4⟩ := conflicts_eq_false (hl.valid f hf) (hfree f hf ho h1 h2) hty
  rw [h4] at hg
  exact ⟨h3, (Option.some.inj hg).symm⟩

/-- A request that `flckadj` carries out. -/
theorem Refines.flckadj {m : ByteMap} {frlock : ℕ} (h : Refines l m) (hf : Fit me l k ld)
    (hadj : flckadj me frlock l k ld = some l') :
    Refines l' (m.put me ld.lStart ld.lEnd (granted ld.lType)) := by
  obtain ⟨hl', hb⟩ := flckadj_spec hf.le (hf.scanning frlock) hf.valid hadj
  refine ⟨hl', byteMap_eq_of_holds hl' fun o b ty =>
    (hb o b ty).trans (withRequest_iff_put h hf.valid), h.compatible.put ?_⟩
  intro o b ty ty' ho h1 h2 hmo hv
  obtain ⟨f, hmem, rfl, rfl, h3, h4⟩ := h.holds.mp hmo
  exact hf.free ty' hv f hmem ho (by omega) (by omega)

/-- A successful `sys_reclock` does what it says. -/
theorem Refines.reclock {m : ByteMap} {c : LockCall} {arg : FlockArg} (h : Refines l m)
    (hr : reclock c arg l = some l') : Refines l' (mapStep m (.reclock c arg)) := by
  rw [Os.reclock] at hr
  split at hr
  · cases hr
  cases hrange : lockRange c.iSize c.offset arg with
  | none => simp only [hrange] at hr; simp at hr
  | some r =>
    obtain ⟨s, t⟩ := r
    simp only [hrange] at hr
    obtain ⟨hs, ht, -, hst⟩ := lockRange_eq hrange
    rw [mapStep, ← hs, ← ht]
    cases hty : arg.lType with
    | invalid => simp only [hty] at hr; simp at hr
    | unlck =>
      simp only [hty] at hr
      exact h.flckadj (fit_unlck h.list hst rfl) hr
    | rdlck | wrlck =>
      simp only [hty] at hr
      cases hb : blocked c.me l ⟨_, s, t⟩ with
      | inl f => rw [hb] at hr; simp at hr
      | inr k =>
        rw [hb] at hr
        exact h.flckadj (fit_blocked h.list hst (by simp) hb) hr

/-- `sys_cleanlocks` takes the owner's locks away and leaves the others. -/
theorem Refines.cleanlocks {m : ByteMap} (h : Refines l m) (me : Owner) (ignPid : Bool) :
    Refines (cleanlocks me ignPid l) (m.clear (cleans me ignPid)) := by
  have hl : LockList (Os.cleanlocks me ignPid l) :=
    ⟨fun f hf => h.list.valid f (mem_of_mem_filter hf),
      h.list.sep.sublist filter_sublist⟩
  refine ⟨hl, byteMap_eq_of_holds hl fun o b ty => ?_, fun o o' b ty ty' hne h1 h2 => ?_⟩
  · rw [ByteMap.clear]
    split_ifs with hc
    · simp only [iff_false]
      rintro ⟨f, hf, rfl, -⟩
      simp [Os.cleanlocks, hc] at hf
    · rw [h.holds]
      constructor
      · rintro ⟨f, hf, hrest⟩
        exact ⟨f, mem_of_mem_filter hf, hrest⟩
      · rintro ⟨f, hf, rfl, hrest⟩
        exact ⟨f, mem_filter.mpr ⟨hf, by simpa using hc⟩, rfl, hrest⟩
  · simp only [ByteMap.clear] at h1 h2
    split_ifs at h1 h2
    exact h.compatible o o' b ty ty' hne h1 h2

theorem Refines.step {m : ByteMap} {e : LockEvent} (h : Refines l m)
    (he : lockStep l e = some l') : Refines l' (mapStep m e) := by
  cases e with
  | reclock c arg => exact h.reclock he
  | cleanlocks me ignPid =>
    obtain rfl := Option.some.inj he
    exact h.cleanlocks me ignPid

theorem refines_nil : Refines [] fun _ _ => none :=
  ⟨⟨by simp, List.Pairwise.nil⟩, rfl, fun _ _ _ _ _ _ h => by cases h⟩

theorem refines_run {es : List LockEvent} (h : exec lockStep [] es = some l) :
    Refines l (es.foldl mapStep fun _ _ => none) :=
  exec_simulation (fun _ _ _ _ hr he => hr.step he) refines_nil h

/-- An admitted request is for a range of bytes from the start of the file on. -/
theorem request_of_reclock {c : LockCall} {arg : FlockArg} (h : reclock c arg l = some l') :
    0 ≤ requestStart c arg ∧ requestStart c arg ≤ requestEnd c arg := by
  rw [reclock] at h
  split at h
  · cases h
  cases hrange : lockRange c.iSize c.offset arg with
  | none => simp only [hrange] at h; cases h
  | some r =>
    obtain ⟨hs, ht, h1, h2⟩ := lockRange_eq hrange
    rw [← hs, ← ht]
    exact ⟨h1, h2⟩

/-- **Record locks refine a byte map.**  After every run of successful calls from the empty
list the byte map is the one the calls ask for, one after the other; owners that share a
byte may all read it; and the list is sorted, the locks of one owner disjoint and those of
one type not touching.  A further call changes the map as it asks, over the range that
starts `l_start` after what it is relative to. -/
theorem reclock_refines_byte_map {es : List LockEvent} (h : exec lockStep [] es = some l) :
    byteMap l = (es.foldl mapStep fun _ _ => none) ∧ (byteMap l).Compatible ∧ LockList l ∧
      (∀ e l', lockStep l e = some l' → byteMap l' = mapStep (byteMap l) e ∧
        (byteMap l').Compatible ∧ LockList l') ∧
      ∀ c arg l', reclock c arg l = some l' → 0 ≤ base c arg →
        requestStart c arg = arg.lStart + base c arg ∧ 0 ≤ requestStart c arg ∧
          requestStart c arg ≤ requestEnd c arg := by
  obtain ⟨hl, hm, hc⟩ := refines_run h
  rw [← hm] at hc
  refine ⟨hm, hc, hl, fun e l' he => ?_, fun c arg l' hr hbase => ?_⟩
  · obtain ⟨hl', hm', hc'⟩ := (Refines.mk hl rfl hc).step he
    exact ⟨hm', hm' ▸ hc', hl'⟩
  · obtain ⟨h1, h2⟩ := request_of_reclock hr
    exact ⟨requestStart_eq hbase h1, h1, h2⟩

/-- A process with a file open for both, and an argument counted from the beginning. -/
def lockCall (pid : ℤ) : LockCall := ⟨⟨pid, 0⟩, ⟨100, by norm_num⟩, ⟨0, by norm_num⟩, true, true, 9⟩

def lockArg (ty : LockType) (start len : Fin 100) : FlockArg :=
  ⟨ty, 0, ⟨start, by omega⟩, ⟨len, by omega⟩⟩

/-- A write lock with a hole cut into it, beside a read lock of another process. -/
def holeRun : List LockEvent :=
  [.reclock (lockCall 7) (lockArg .wrlck 0 10), .reclock (lockCall 7) (lockArg .unlck 3 4),
    .reclock (lockCall 8) (lockArg .rdlck 4 2)]

theorem reclock_refines_byte_map_hole :
    ∃ l, exec lockStep [] holeRun = some l ∧ byteMap l ⟨7, 0⟩ 2 = some .wrlck ∧
      byteMap l ⟨8, 0⟩ 5 = some .rdlck ∧ (byteMap l).Compatible ∧ LockList l := by
  refine ⟨_, rfl, rfl, rfl, ?_⟩
  obtain ⟨-, hcompatible, hlist, -⟩ :=
    reclock_refines_byte_map (show exec lockStep [] holeRun = some _ from rfl)
  exact ⟨hcompatible, hlist⟩

end Os
