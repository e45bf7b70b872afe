import OpusSysV.Cmd.SccsSum
import Mathlib.Tactic.Ring

/-!
# Updated SCCS files verify

* `Idle`, `Writing` — the state before the x-file is made, and while it is written.
* `ReadsBack` — that the sum is right when a file is read.
* `updates_verify` — when a new file has the lines that were written and its sum is right.
-/

namespace Cmd.Sccs

open Lib List Option

variable {s t : Sys} {heads : List Str} {j : Job}

/-! ## Sums -/

theorem sum_append (a b : Str) : sum (a ++ b) = sum a + sum b := by
  unfold sum
  rw [map_append, List.sum_append]

theorem digits_eq (a : Str) : digits a = sum a - 48 * a.length := by
  unfold digits sum
  induction a with
  | nil => rfl
  | cons c a ih =>
    have h0 : chv '0' = 48 := rfl
    rw [map_cons, sum_cons, map_cons, sum_cons, length_cons, ih, h0]
    push_cast
    ring

/-! ## Calls -/

/-- The x-file is not made yet. -/
structure Idle (s : Sys) : Prop where
  Xcreate : s.Xcreate = false
  p_nhash : s.p_nhash = 0

/-- The x-file has the strings that were given, of which the first are `heads`. -/
structure Writing (heads : List Str) (s : Sys) : Prop where
  p_upd : s.p_upd = true
  p_reopen : s.p_reopen = false
  Xcreate : s.Xcreate = true
  Xiop : s.Xiop = some s.given.flatten
  heads : heads <+: s.given
  p_nhash : s.p_nhash = sum s.given.tail.flatten
  null : ∀ l ∈ s.given, '\x00' ∉ l

/-- What matters for what is written. -/
def Sys.Same (s t : Sys) : Prop :=
  t.p_upd = s.p_upd ∧ t.p_reopen = s.p_reopen ∧ t.Xcreate = s.Xcreate ∧ t.Xiop = s.Xiop ∧
    t.given = s.given ∧ t.p_nhash = s.p_nhash

theorem Writing.congr (h : Writing heads s) (hs : s.Same t) : Writing heads t := by
  obtain ⟨h1, h2, h3, h4, h5, h6⟩ := hs
  exact ⟨h1 ▸ h.p_upd, h2 ▸ h.p_reopen, h3 ▸ h.Xcreate, by rw [h4, h5]; exact h.Xiop,
    h5 ▸ h.heads, by rw [h6, h5]; exact h.p_nhash, h5 ▸ h.null⟩

theorem Idle.congr (h : Idle s) (hs : s.Same t) : Idle t :=
  ⟨hs.2.2.1 ▸ h.Xcreate, hs.2.2.2.2.2 ▸ h.p_nhash⟩

/-- A string is written. -/
theorem Writing.fputs (h : Writing heads s) (hne : heads ≠ []) (p : Str) :
    Writing heads (s.fputs p) := by
  obtain ⟨rest, hrest⟩ := h.heads
  obtain ⟨hd, tl, hg⟩ := exists_cons_of_ne_nil (l := s.given) (by rw [← hrest]; simp [hne])
  refine ⟨h.p_upd, h.p_reopen, h.Xcreate, ?_, h.heads.trans (prefix_append _ _), ?_, ?_⟩
  · simp [Sys.fputs, h.Xiop]
  · have hn := h.p_nhash
    simp only [Sys.fputs, h.Xcreate, if_true, hn, hg, cons_append, tail_cons]
    rw [flatten_append, sum_append]
    simp
  · intro l hl
    rcases mem_append.mp hl with hl | hl
    · exact h.null l hl
    · rw [mem_singleton.mp hl]
      exact null_notMem_cstr p

theorem Writing.putline (h : Writing heads s) (hne : heads ≠ []) (newline : Option Str) :
    Writing heads (s.putline newline) := by
  have hwr : ∀ {u : Sys}, Writing heads u → Writing heads { u with Xcreate := true } := fun hu =>
    hu.congr ⟨rfl, rfl, hu.Xcreate.symm, rfl, rfl, rfl⟩
  unfold Sys.putline
  rw [if_neg (by rw [h.p_upd]; nofun)]
  simp only [h.Xcreate, if_true]
  cases newline with
  | some p => exact hwr (h.fputs hne p)
  | none =>
    have hs' : Writing heads { s with p_wrttn := (s.p_wrttn + 1) % 256, Xcreate := true } :=
      h.congr ⟨rfl, rfl, h.Xcreate.symm, rfl, rfl, rfl⟩
    dsimp only
    split
    · exact hwr (hs'.fputs hne _)
    · exact hwr hs'

/-- The first string that is written. -/
theorem Idle.create (h : Idle s) (hu : s.p_upd = true) (hr : s.p_reopen = false) (newline : Option Str)
    {p : Str} (hp : newline = some p ∨ newline = none ∧ s.p_wrttn = 0 ∧ p = s.p_line) :
    Writing [cstr p] (s.putline newline) ∧ (s.putline newline).given = [cstr p] := by
  have hmain : ∀ u : Sys, u.p_upd = true → u.p_reopen = false → u.p_nhash = 0 → u.Xcreate = false →
      u.Xiop = some [] → u.given = [] →
      Writing [cstr p] { u.fputs p with Xcreate := true } ∧ (u.fputs p).given = [cstr p] := by
    intro u h1 h2 h3 h4 h5 h6
    refine ⟨⟨h1, h2, rfl, ?_, ?_, ?_, ?_⟩, by simp [Sys.fputs, h6]⟩
    · simp [Sys.fputs, h5, h6]
    · simp [Sys.fputs, h6]
    · simp [Sys.fputs, h6, h4, h3, sum]
    · intro l hl
      simp only [Sys.fputs, h6, nil_append, mem_singleton] at hl
      rw [hl]
      exact null_notMem_cstr p
  unfold Sys.putline
  rw [if_neg (by rw [hu]; nofun)]
  simp only [h.Xcreate, Bool.false_eq_true, if_false]
  rcases hp with rfl | ⟨rfl, hw, rfl⟩
  · exact hmain _ hu hr h.p_nhash rfl rfl rfl
  · simp only [hw, if_true]
    exact hmain _ hu hr h.p_nhash rfl rfl rfl

/-! ## Reading while the x-file is written -/

/-- What `getline` does behind `putline`. -/
def Sys.fill (s : Sys) : Option (Bool × Sys) :=
  match s.p_iop with
  | none => none
  | some file =>
    if file = [] then s.atEof.map fun s => (false, s)
    else
      let r := fgets (BUFSIZ - 1) file
      some (true, { s with
        p_iop := some r.2
        p_line := cstr r.1
        p_slnno := s.p_slnno + 1
        p_wrttn := 0
        p_chash := s.p_chash + sum (cstr r.1) })

theorem getline_eq (s : Sys) :
    s.getline = (if s.p_wrttn = 0 then s.putline none else s).fill := rfl

/-- The end of a file leaves what is written alone, and a file that is read again begins with a sum of
0. -/
theorem atEof_spec (h : s.atEof = some t) : t.p_reopen = false ∧
    (s.p_reopen = false → s.Same t) ∧
    (t.p_upd = s.p_upd ∧ t.Xcreate = s.Xcreate ∧ (s.p_nhash = 0 → t.p_nhash = 0)) := by
  unfold Sys.atEof at h
  cases hr : s.p_reopen with
  | true =>
    simp only [hr, if_true] at h
    split at h
    · cases h
    · split at h
      · cases h
      · cases h
        exact ⟨rfl, nofun, rfl, rfl, fun _ => rfl⟩
  | false =>
    simp only [hr, Bool.false_eq_true, if_false] at h
    split at h
    · cases h
    · split at h
      · cases h
      · cases h
        exact ⟨rfl, fun _ => ⟨rfl, hr.symm, rfl, rfl, rfl, rfl⟩, rfl, rfl, id⟩

theorem fill_spec {b : Bool} (h : s.fill = some (b, t)) :
    (b = true → s.Same t ∧ t.p_wrttn = 0) ∧ (b = false → t.p_reopen = false) ∧
    (s.p_reopen = false → s.Same t) ∧
    (t.p_upd = s.p_upd ∧ t.Xcreate = s.Xcreate ∧ (s.p_nhash = 0 → t.p_nhash = 0)) := by
  unfold Sys.fill at h
  split at h
  · cases h
  · split at h
    · obtain ⟨u, hu, heq⟩ := map_eq_some_iff.mp h
      cases heq
      obtain ⟨h1, h2, h3⟩ := atEof_spec hu
      exact ⟨nofun, fun _ => h1, h2, h3⟩
    · cases h
      exact ⟨fun _ => ⟨⟨rfl, rfl, rfl, rfl, rfl, rfl⟩, rfl⟩, nofun,
        fun _ => ⟨rfl, rfl, rfl, rfl, rfl, rfl⟩, rfl, rfl, id⟩

theorem Writing.getline (h : Writing heads s) (hne : heads ≠ []) {b : Bool}
    (hg : s.getline = some (b, t)) : Writing heads t := by
  rw [getline_eq] at hg
  have hu : Writing heads (if s.p_wrttn = 0 then s.putline none else s) := by
    split
    · exact h.putline hne none
    · exact h
  exact hu.congr ((fill_spec hg).2.2.1 hu.p_reopen)

theorem Writing.act (h : Writing heads s) (hne : heads ≠ []) {a : Act} (ha : s.act a = some t) :
    Writing heads t := by
  cases a with
  | getline =>
    obtain ⟨⟨b, u⟩, hu, rfl⟩ := map_eq_some_iff.mp ha
    exact h.getline hne hu
  | putline newline =>
    cases ha
    exact h.putline hne newline
  | wrttn n =>
    cases ha
    exact h.congr ⟨rfl, rfl, rfl, rfl, rfl, rfl⟩
  | edit line =>
    cases ha
    exact h.congr ⟨rfl, rfl, rfl, rfl, rfl, rfl⟩
  | chkeof =>
    cases ha
    exact h.congr ⟨rfl, rfl, rfl, rfl, rfl, rfl⟩
  | fatal => cases ha

theorem Writing.acts (h : Writing heads s) (hne : heads ≠ []) {as : List Act}
    (ha : exec Sys.act s as = some t) : Writing heads t :=
  exec_invariant' (P := Writing heads) (fun _ _ _ h hs => h.act hne hs) h ha

/-- What each line keeps, and the end of the file as well, holds when the file is read. -/
theorem drainLoop_spec {P Q : Sys → Prop}
    (hP : ∀ s t, P s → s.getline = some (true, t) → P t)
    (hQ : ∀ s t, P s → s.getline = some (false, t) → Q t) (k : ℕ) :
    ∀ s, P s → Sys.drainLoop k s = some t → Q t := by
  induction k with
  | zero => exact fun _ _ h => nomatch h
  | succ k ih =>
    intro s hs h
    unfold Sys.drainLoop at h
    split at h
    · cases h
    next u hu => exact ih u (hP s u hs hu) h
    next u hu =>
      cases h
      exact hQ s t hs hu

theorem Writing.drain (h : Writing heads s) (hne : heads ≠ []) (hd : s.drain = some t) :
    Writing heads t :=
  drainLoop_spec (P := Writing heads) (Q := Writing heads) (fun _ _ h hg => h.getline hne hg)
    (fun _ _ h hg => h.getline hne hg) _ s h hd

/-! ## Reading without writing -/

/-- `delta` reads the base text. -/
structure Reading (s : Sys) : Prop extends Idle s where
  p_upd : s.p_upd = false

theorem Reading.getline (h : Reading s) {b : Bool} (hg : s.getline = some (b, t)) :
    Reading t ∧ (b = false → t.p_reopen = false) := by
  have hput : (if s.p_wrttn = 0 then s.putline none else s) = s := by
    unfold Sys.putline
    simp only [h.p_upd, if_true, ite_self]
  rw [getline_eq, hput] at hg
  obtain ⟨_, hr, _, hu, hX, hn⟩ := fill_spec hg
  exact ⟨⟨⟨hX.trans h.Xcreate, hn h.p_nhash⟩, hu.trans h.p_upd⟩, hr⟩

theorem Reading.act (h : Reading s) {a : Act} (ha : s.act a = some t) : Reading t := by
  cases a with
  | getline =>
    obtain ⟨r, hr, rfl⟩ := map_eq_some_iff.mp ha
    exact (h.getline hr).1
  | putline newline =>
    cases ha
    unfold Sys.putline
    rwa [if_pos h.p_upd]
  | wrttn n | edit line | chkeof =>
    cases ha
    exact ⟨⟨h.Xcreate, h.p_nhash⟩, h.p_upd⟩
  | fatal => cases ha

theorem Reading.drain (h : Reading s) (hd : s.drain = some t) : Reading t ∧ t.p_reopen = false :=
  drainLoop_spec (P := Reading) (Q := fun t => Reading t ∧ t.p_reopen = false)
    (fun _ _ h hg => (h.getline hg).1) (fun _ _ h hg => ⟨(h.getline hg).1, (h.getline hg).2 rfl⟩)
    _ s h hd

/-! ## The commands -/

/-- The string behind the first ones. -/
theorem Writing.next (h : Writing heads s) (hne : heads ≠ []) (hg : s.given = heads) (p : Str) :
    Writing (heads ++ [cstr p]) (s.putline (some p)) := by
  have hp := h.putline hne (some p)
  refine ⟨hp.p_upd, hp.p_reopen, hp.Xcreate, hp.Xiop, ?_, hp.p_nhash, hp.null⟩
  unfold Sys.putline
  simp only [h.p_upd, h.Xcreate, if_true, Sys.fputs, hg, Bool.true_eq_false, if_false]
  exact prefix_refl _

/-- One try of `delta` writes a whole file. -/
theorem Idle.attempt (h : Idle s) (hr : s.p_reopen = false) {as : List Act}
    (ha : s.attempt as = some t) : Writing [Sys.headline0, Sys.statsline0] t := by
  unfold Sys.attempt at ha
  obtain ⟨⟨b, u⟩, hu, ha⟩ := bind_eq_some_iff.mp ha
  obtain ⟨v, hv, ha⟩ := bind_eq_some_iff.mp ha
  rw [getline_eq] at hu
  have hsame := (fill_spec hu).2.2.1 hr
  have hi : Idle u := Idle.congr (s := { s with p_upd := true, p_wrttn := 1 })
    ⟨h.Xcreate, h.p_nhash⟩ hsame
  have hi' : Idle { u with p_wrttn := 1 } := ⟨hi.Xcreate, hi.p_nhash⟩
  obtain ⟨hhead, hgiven⟩ := hi'.create hsame.1 (hsame.2.1.trans hr) (some Sys.headline0) (.inl rfl)
  have hboth : Writing [Sys.headline0, Sys.statsline0]
      (({ u with p_wrttn := 1 }.putline Sys.headline0).putline Sys.statsline0) :=
    hhead.next nofun hgiven Sys.statsline0
  have hv' := hboth.acts nofun hv
  split at ha
  · exact hv'.drain nofun ha
  · cases ha
    exact hv'

theorem Idle.attempts {last : List Act} {tries : List (List Act)} :
    ∀ {s}, Idle s → s.p_reopen = false → Sys.attempts last tries s = some t →
      Writing [Sys.headline0, Sys.statsline0] t := by
  induction tries with
  | nil => exact fun h hr ha => h.attempt hr ha
  | cons as tries ih =>
    intro s h hr ha
    obtain ⟨u, hu, ha⟩ := bind_eq_some_iff.mp ha
    exact ih (s := u.retry) ⟨rfl, rfl⟩ (h.attempt hr hu).p_reopen ha

/-- `sinit` makes the packet new and reads the first line. -/
theorem sinit_spec {file : Str} (h : s.sinit file = some t) :
    t.p_upd = false ∧ t.p_reopen = false ∧ t.p_nhash = 0 ∧ t.Xcreate = s.Xcreate ∧ t.p_wrttn = 0 ∧
      t.p_line = cstr (fgets (BUFSIZ - 1) file).1 := by
  unfold Sys.sinit Sys.getline at h
  simp only [Nat.one_ne_zero, if_false] at h
  by_cases hf : file = []
  · simp only [hf, if_true] at h
    cases hx : (Sys.atEof _ : Option Sys) with
    | none =>
      rw [hx] at h
      cases h
    | some u =>
      rw [hx] at h
      cases h
  · simp only [hf, if_false] at h
    split at h
    · split at h
      · cases h
        exact ⟨rfl, rfl, rfl, rfl, rfl, rfl⟩
      · cases h
    · cases h

/-! ## Reading a new file -/

/-- The sum is right: a command that opens the file reads it to the end. -/
def ReadsBack (file : Str) : Prop :=
  ∃ s, Sys.start.sinit file = some s ∧
    ∃ t, { s with p_chkeof := true }.drain = some t ∧ (t.p_chash - t.p_ihash) % 65536 = 0

/-- Reading adds what is left of the file to the sum. -/
theorem drainLoop_sum (k : ℕ) : ∀ (s : Sys) (file : Str), s.p_upd = false → s.p_iop = some file →
    s.p_chkeof = true → s.p_reopen = false → '\x00' ∉ file → file.length < k →
    (s.p_chash + sum file - s.p_ihash) % 65536 = 0 →
    ∃ t, Sys.drainLoop k s = some t ∧ (t.p_chash - t.p_ihash) % 65536 = 0 := by
  induction k with
  | zero => exact fun _ _ _ _ _ _ _ h _ => absurd h (Nat.not_lt_zero _)
  | succ k ih =>
    intro s file hu hio hk hr hnull hlen hsum
    have hput : (if s.p_wrttn = 0 then s.putline none else s) = s := by
      unfold Sys.putline
      simp only [hu, if_true, ite_self]
    unfold Sys.drainLoop
    rw [getline_eq, hput]
    unfold Sys.fill
    simp only [hio]
    by_cases hf : file = []
    · have hsum' : (s.p_chash - s.p_ihash) % 65536 = 0 := by
        rw [hf] at hsum
        simpa [sum] using hsum
      refine ⟨{ s with p_iop := none }, ?_, hsum'⟩
      unfold Sys.atEof
      simp [hf, hr, hk, hsum']
    · simp only [hf, if_false]
      have happ := fgets_append (BUFSIZ - 1) file
      have hnull1 : '\x00' ∉ (fgets (BUFSIZ - 1) file).1 := fun h =>
        hnull (happ ▸ mem_append_left _ h)
      have hnull2 : '\x00' ∉ (fgets (BUFSIZ - 1) file).2 := fun h =>
        hnull (happ ▸ mem_append_right _ h)
      have hleft := fgets_left (n := BUFSIZ - 1) (by decide) hf
      refine ih _ (fgets (BUFSIZ - 1) file).2 hu rfl hk hr hnull2 (by omega) ?_
      have hs := congrArg sum happ
      rw [sum_append] at hs
      dsimp only
      rw [cstr_eq hnull1, add_assoc, hs]
      exact hsum

theorem fill_replicate (k : ℕ) {ds : Str} (hd : ∀ c ∈ ds.head?, c ≠ ' ') :
    fill (List.replicate k ' ' ++ ds) = List.replicate k '0' ++ ds := by
  induction k with
  | zero =>
    unfold fill
    split
    next p heq =>
      rw [replicate_zero, nil_append] at heq
      exact absurd rfl (hd ' ' (by rw [heq]; rfl))
    next => rfl
  | succ k ih =>
    rw [replicate_succ, replicate_succ, cons_append, cons_append, ← ih]
    rfl

theorem isDigit_sprintf_u {n : ℕ} {c : Char} (h : c ∈ sprintf_u n) : c.isDigit = true :=
  Nat.isDigit_of_mem_toDigits (by omega) (by omega) h

/-- The blanks in front of the sum become zeros. -/
theorem hashline_eq (n : ℤ) : hashline n =
    CTLCHAR :: HEAD :: ((sprintf_u (n % 65536).toNat).leftpad 5 '0' ++ ['\n']) := by
  unfold hashline
  rw [List.leftpad, List.leftpad, fill_replicate]
  · rfl
  · intro c hc heq
    have := isDigit_sprintf_u (mem_of_head? hc)
    rw [heq] at this
    cases this

theorem mem_leftpad {k n : ℕ} {c : Char} (h : c ∈ (sprintf_u n).leftpad k '0') : c.isDigit = true := by
  rcases mem_append.mp h with h | h
  · rw [eq_of_mem_replicate h]
    rfl
  · exact isDigit_sprintf_u h

theorem length_sprintf_05u_iff (n : ℕ) : (sprintf_05u n).length = 5 ↔ n < 100000 := by
  unfold sprintf_05u
  rw [length_leftpad]
  have := Nat.length_toDigits_le_iff (b := 10) (n := n) (k := 5) (by omega) (by omega)
  unfold sprintf_u
  omega

theorem length_hashline (n : ℤ) : (hashline n).length = 8 := by
  have hlt : (n % 65536).toNat < 100000 := by omega
  have h5 := (length_sprintf_05u_iff _).mpr hlt
  rw [hashline_eq]
  unfold sprintf_05u at h5
  simp only [length_cons, length_append, length_nil, h5]

theorem null_notMem_hashline (n : ℤ) : '\x00' ∉ hashline n := by
  rw [hashline_eq]
  intro h
  rcases mem_cons.mp h with h | h
  · cases h
  rcases mem_cons.mp h with h | h
  · cases h
  rcases mem_append.mp h with h | h
  · exact absurd (mem_leftpad h) (by decide)
  · cases mem_singleton.mp h

/-- A file that begins with the sum of the rest reads back. -/
theorem readsBack_of_sum {n : ℤ} {rest : Str} (hnull : '\x00' ∉ rest)
    (hsum : (sum rest - n) % 65536 = 0) : ReadsBack (hashline n ++ rest) := by
  obtain ⟨ds, hds⟩ : ∃ ds, ds = (sprintf_u (n % 65536).toNat).leftpad 5 '0' := ⟨_, rfl⟩
  have hlen : (CTLCHAR :: HEAD :: ds).length < BUFSIZ - 1 := by
    have h8 := length_hashline n
    rw [hashline_eq, ← hds] at h8
    simp only [length_cons, length_append, length_nil] at h8 ⊢
    have : BUFSIZ = 1024 := rfl
    omega
  have hnl : '\n' ∉ CTLCHAR :: HEAD :: ds := by
    intro h
    rcases mem_cons.mp h with h | h
    · cases h
    rcases mem_cons.mp h with h | h
    · cases h
    · exact absurd (mem_leftpad (hds ▸ h)) (by decide)
  have hfile : hashline n ++ rest = (CTLCHAR :: HEAD :: ds) ++ '\n' :: rest := by
    rw [hashline_eq, ← hds]
    simp
  have hget : fgets (BUFSIZ - 1) (hashline n ++ rest) = (hashline n, rest) := by
    rw [hfile, fgets_line hnl hlen, hashline_eq, ← hds]
    rfl
  have hatoi : satoi (ds ++ ['\n']) = ((n % 65536).toNat, ['\n']) := by
    rw [hds]
    exact satoi_leftpad 5 _ (by intro c hc; cases hc; rfl)
  have hline : cstr (hashline n) = CTLCHAR :: HEAD :: (ds ++ ['\n']) := by
    rw [cstr_eq (null_notMem_hashline n), hashline_eq, ← hds]
  have hne : hashline n ++ rest ≠ [] := by
    rw [hfile]
    nofun
  refine ⟨{ Sys.start with
    sfile := hashline n ++ rest, p_iop := some rest, p_line := CTLCHAR :: HEAD :: (ds ++ ['\n']),
    p_slnno := 1, p_wrttn := 0, do_chksum := true, p_ihash := (n % 65536).toNat }, ?_, ?_⟩
  · unfold Sys.sinit Sys.getline
    simp only [Nat.one_ne_zero, if_false, hne, hget, hline, hatoi]
    rfl
  · refine drainLoop_sum _ _ rest rfl rfl rfl rfl hnull (Nat.lt_succ_self _) ?_
    simp only [Sys.start, zero_add]
    omega

/-! ## New files -/

/-- `flushline` replaces what is at the beginning of the x-file, and adds the digits to the sum. -/
theorem Writing.flushline (h : Writing heads s) (hne : heads ≠ []) (stats : Option Stats) :
    heads <+: (s.flushline stats).given ∧
    (s.flushline stats).p_nhash =
      sum (s.flushline stats).given.tail.flatten + (stats.map Stats.digits).getD 0 ∧
    (s.flushline stats).Xiop = some (overwrite
      (hashline (s.flushline stats).p_nhash ++ (stats.map Stats.line).getD [])
      (s.flushline stats).given.flatten) ∧
    ∀ l ∈ (s.flushline stats).given, '\x00' ∉ l := by
  have hp := h.putline hne none
  unfold Sys.flushline
  rw [if_neg (by rw [h.p_upd]; nofun)]
  refine ⟨hp.heads, ?_, ?_, hp.null⟩
  · dsimp only
    rw [hp.p_nhash]
  · dsimp only
    rw [hp.Xiop]
    rfl

/-- The lines that `flushline` writes. -/
def Job.final (j : Job) (t : Sys) : List Str :=
  match j with
  | .delta d => [hashline t.p_nhash, d.stats.line]
  | .rmchg _ _ => [hashline t.p_nhash]

/-- The new file has the lines that `putline` was given, but for the first ones, which have kept their
lengths; and its sum is right. -/
def Job.Verified (j : Job) (t : Sys) : Prop :=
  ∃ heads rest file, t.given = heads ++ rest ∧
    (j.final t).map List.length = heads.map List.length ∧
    t.Xiop = some file ∧ file = (j.final t).flatten ++ rest.flatten ∧ ReadsBack file

/-- The numbers of the statistics have five digits; the first line of the old file has five digits. -/
def Job.Fits : Job → Prop
  | .delta d => unsigned d.inserted < 100000 ∧ unsigned d.deleted < 100000 ∧
      unsigned (d.orig - d.deleted) < 100000
  | .rmchg file _ => (cstr (fgets (BUFSIZ - 1) file).1).length = 8

theorem overwrite_append {a b c : Str} (h : a.length = b.length) : overwrite a (b ++ c) = a ++ c := by
  unfold overwrite
  rw [h, drop_left]

theorem length_stats_line (st : Stats) : st.line.length = 6 +
    (sprintf_05u (unsigned st.s_ins)).length + (sprintf_05u (unsigned st.s_del)).length +
      (sprintf_05u (unsigned st.s_unc)).length := by
  unfold Stats.line statsline
  simp only [length_append, length_cons, length_nil]
  omega

theorem five_le_sprintf_05u (n : ℕ) : 5 ≤ (sprintf_05u n).length := by
  unfold sprintf_05u
  rw [length_leftpad]
  exact Nat.le_max_left _ _

/-- The statistics line has its length when each number has five digits. -/
theorem length_stats_line_iff (d : Delta) :
    d.stats.line.length = Sys.statsline0.length ↔ (Job.delta d).Fits := by
  have h1 := length_sprintf_05u_iff (unsigned d.inserted)
  have h2 := length_sprintf_05u_iff (unsigned d.deleted)
  have h3 := length_sprintf_05u_iff (unsigned (d.orig - d.deleted))
  have h1' := five_le_sprintf_05u (unsigned d.inserted)
  have h2' := five_le_sprintf_05u (unsigned d.deleted)
  have h3' := five_le_sprintf_05u (unsigned (d.orig - d.deleted))
  have h0 : Sys.statsline0.length = 21 := rfl
  show _ ↔ unsigned d.inserted < 100000 ∧ unsigned d.deleted < 100000 ∧
    unsigned (d.orig - d.deleted) < 100000
  rw [length_stats_line, h0, ← h1, ← h2, ← h3]
  unfold Delta.stats
  dsimp only
  omega

/-- Zeros become digits. -/
theorem sum_stats_line {d : Delta} (h : (Job.delta d).Fits) :
    sum d.stats.line = sum Sys.statsline0 + d.stats.digits := by
  obtain ⟨h1, h2, h3⟩ := h
  have h1' := (length_sprintf_05u_iff _).mpr h1
  have h2' := (length_sprintf_05u_iff _).mpr h2
  have h3' := (length_sprintf_05u_iff _).mpr h3
  have h0 : sum Sys.statsline0 =
      sum [CTLCHAR, STATS, ' '] + sum ['/'] + sum ['/'] + sum ['\n'] + 720 := by decide
  unfold Stats.line statsline Stats.digits Delta.stats
  simp only [sum_append, digits_eq, h1', h2', h3', h0]
  push_cast
  ring

theorem null_notMem_stats_line (st : Stats) : '\x00' ∉ st.line := by
  have hd : ∀ n, '\x00' ∉ sprintf_05u n := fun n h => absurd (mem_leftpad h) (by decide)
  unfold Stats.line statsline
  simp only [mem_append, hd, or_false, not_or]
  decide

/-- A new file is right when the first lines have kept their lengths, if it reads back then. -/
theorem verified_iff (hheads : heads <+: t.given) (hlen : heads.length = (j.final t).length)
    (hX : t.Xiop = some (overwrite (j.final t).flatten t.given.flatten))
    (hback : (j.final t).map List.length = heads.map List.length → ∀ rest, t.given = heads ++ rest →
      ReadsBack ((j.final t).flatten ++ rest.flatten)) :
    j.Verified t ↔ (j.final t).map List.length = heads.map List.length := by
  constructor
  · rintro ⟨heads', rest', _, hg, hl, _⟩
    have hlen' : heads'.length = heads.length := by
      have := congrArg List.length hl
      simp only [length_map] at this
      omega
    have hpre : heads' <+: t.given := ⟨rest', hg.symm⟩
    have heq : heads' = heads :=
      (prefix_of_prefix_length_le hpre hheads hlen'.le).eq_of_length hlen'
    rw [← heq]
    exact hl
  · intro hl
    obtain ⟨rest, hrest⟩ := hheads
    refine ⟨heads, rest, _, hrest.symm, hl, hX, ?_, ?_⟩
    · rw [← hrest, flatten_append, overwrite_append]
      rw [length_flatten, length_flatten, hl]
    · rw [← hrest, flatten_append, overwrite_append]
      · exact hback hl rest hrest.symm
      · rw [length_flatten, length_flatten, hl]

theorem delta_verified_iff {d : Delta} (h : Writing [Sys.headline0, Sys.statsline0] s) :
    (Job.delta d).Verified (s.flushline (some d.stats)) ↔ (Job.delta d).Fits := by
  obtain ⟨hheads, hn, hX, hnull⟩ := h.flushline nofun (some d.stats)
  obtain ⟨t, ht⟩ : ∃ t, t = s.flushline (some d.stats) := ⟨_, rfl⟩
  rw [← ht] at hheads hn hX hnull ⊢
  have hlens : ((Job.delta d).final t).map List.length =
      [Sys.headline0, Sys.statsline0].map List.length ↔ (Job.delta d).Fits := by
    rw [← length_stats_line_iff]
    simp [Job.final, length_hashline, Sys.headline0]
  rw [verified_iff hheads rfl, hlens]
  · rw [hX]
    simp [Job.final]
  · intro hl rest hrest
    have hfits := hlens.mp hl
    have hnull' : '\x00' ∉ d.stats.line ++ rest.flatten := by
      rw [mem_append, not_or]
      refine ⟨null_notMem_stats_line _, fun hmem => ?_⟩
      obtain ⟨l, hl, hm⟩ := mem_flatten.mp hmem
      exact hnull l (hrest ▸ mem_append_right _ hl) hm
    have hback := readsBack_of_sum (n := t.p_nhash) hnull' (by
      rw [hn, hrest, sum_append, sum_stats_line hfits]
      simp only [cons_append, tail_cons, nil_append, flatten_cons, sum_append,
        map_some, getD_some]
      omega)
    simpa [Job.final] using hback

theorem rmchg_verified_iff {file head : Str} {as : List Act} (h : Writing [head] s)
    (hhead : head = cstr (fgets (BUFSIZ - 1) file).1) :
    (Job.rmchg file as).Verified (s.flushline none) ↔ (Job.rmchg file as).Fits := by
  obtain ⟨hheads, hn, hX, hnull⟩ := h.flushline nofun none
  obtain ⟨t, ht⟩ : ∃ t, t = s.flushline none := ⟨_, rfl⟩
  rw [← ht] at hheads hn hX hnull ⊢
  have hlens : ((Job.rmchg file as).final t).map List.length = [head].map List.length ↔
      (Job.rmchg file as).Fits := by
    simp only [Job.final, length_hashline, hhead, map_cons, map_nil, List.cons.injEq,
      and_true, Job.Fits]
    exact eq_comm
  rw [verified_iff hheads rfl, hlens]
  · rw [hX]
    simp [Job.final]
  · intro _ rest hrest
    have hnull' : '\x00' ∉ rest.flatten := fun hmem => by
      obtain ⟨l, hl, hm⟩ := mem_flatten.mp hmem
      exact hnull l (hrest ▸ mem_append_right _ hl) hm
    have hback := readsBack_of_sum (n := t.p_nhash) hnull' (by
      rw [hn, hrest]
      simp)
    simpa [Job.final] using hback

/-! ## Runs -/

/-- One file leaves no x-file open, and its new file is right when the numbers fit. -/
theorem Job.run_spec (hs : s.Xcreate = false) : (j.run s).2.Xcreate = false ∧
    ∀ t, (j.run s).1 = some t → (j.Verified t ↔ j.Fits) := by
  cases j with
  | delta d =>
    cases hi : s.sinit d.file with
    | none =>
      simp only [Job.run, hi]
      exact ⟨hs, nofun⟩
    | some u =>
      obtain ⟨hu, _, hn, hX, _, _⟩ := sinit_spec hi
      simp only [Job.run, hi]
      cases d.lockit with
      | false => exact ⟨hX.trans hs, nofun⟩
      | true =>
        refine ⟨rfl, fun t ht => ?_⟩
        unfold Sys.deltaBody at ht
        obtain ⟨v, hv, ht⟩ := bind_eq_some_iff.mp ht
        obtain ⟨w, hw, ht⟩ := bind_eq_some_iff.mp ht
        obtain ⟨x, hx, rfl⟩ := map_eq_some_iff.mp ht
        have hread : Reading { u with p_reopen := true } := ⟨⟨hX.trans hs, hn⟩, hu⟩
        have hv' : Reading v := exec_invariant' (P := Reading) (fun _ _ _ h ha => h.act ha) hread hv
        obtain ⟨hw', hwr⟩ := hv'.drain hw
        exact delta_verified_iff (hw'.toIdle.attempts hwr hx)
  | rmchg file as =>
    refine ⟨rfl, fun t ht => ?_⟩
    unfold Job.run Sys.rmchgBody at ht
    obtain ⟨u, hi, ht⟩ := bind_eq_some_iff.mp ht
    obtain ⟨⟨b, v⟩, hv, ht⟩ := bind_eq_some_iff.mp ht
    obtain ⟨w, hw, ht⟩ := bind_eq_some_iff.mp ht
    obtain ⟨x, hx, rfl⟩ := map_eq_some_iff.mp ht
    obtain ⟨_, hr, hn, hX, hwr, hline⟩ := sinit_spec hi
    have hidle : Idle { u with p_upd := true } := ⟨hX.trans hs, hn⟩
    obtain ⟨hcreate, _⟩ := hidle.create rfl hr none (.inr ⟨rfl, hwr, rfl⟩)
    rw [getline_eq, if_pos hwr] at hv
    have hv' := hcreate.congr ((fill_spec hv).2.2.1 hcreate.p_reopen)
    have hw' := hv'.acts nofun hw
    have hw'' : Writing [cstr u.p_line] { w with p_chkeof := true } :=
      hw'.congr ⟨rfl, rfl, rfl, rfl, rfl, rfl⟩
    refine rmchg_verified_iff (hw''.drain nofun hx) ?_
    rw [hline, cstr_eq (null_notMem_cstr _)]

/-- **Updated files verify.**  In a run of `delta`, or of `rmdel` or `cdc`, over any files, a new file
has the lines that it was given, with first lines of the same lengths, and the right sum, when and only
when the numbers of its statistics, or the line with the old sum, have five digits. -/
theorem updates_verify (jobs : List Job) :
    ∀ r ∈ runs Sys.start jobs, r.1.Verified r.2 ↔ r.1.Fits := by
  have hmain : ∀ (jobs : List Job) (s : Sys), s.Xcreate = false →
      ∀ r ∈ runs s jobs, r.1.Verified r.2 ↔ r.1.Fits := by
    intro jobs
    induction jobs with
    | nil => exact fun _ _ _ h => nomatch h
    | cons j jobs ih =>
      intro s hs r hr
      obtain ⟨hX, hj⟩ := Job.run_spec (j := j) hs
      unfold runs at hr
      cases hrun : (j.run s).1 with
      | none =>
        rw [hrun] at hr
        exact ih _ hX r hr
      | some t =>
        rw [hrun] at hr
        rcases mem_cons.mp hr with rfl | hr
        · exact hj t hrun
        · exact ih _ hX r hr
  exact hmain jobs Sys.start rfl

/-! ## Runs on small files -/

/-- An SCCS file with one empty delta, behind its first line. -/
def oneDelta : Str :=
  ("\x01s 00000/00000/00000\n\x01d D 1.1 90/01/01 00:00:00 u 1 0\n" ++
    "\x01c date and time created 90/01/01 00:00:00 by u\n\x01e\n\x01u\n\x01U\n\x01t\n\x01T\n" ++
    "\x01I 1\n\x01E 1\n").toList

/-- What a second delta writes up to the lines that it inserts. -/
def secondDelta : List Act :=
  [.putline (some "\x01d D 1.2 90/01/02 00:00:00 u 2 1\n".toList), .putline (some "\x01c ".toList),
    .putline (some "\n".toList), .putline (some "\x01e\n".toList)] ++
  List.replicate 8 .getline ++ [.putline none, .putline none, .putline (some "\x01I 2\n".toList)]

/-- `delta` for that file, with the lines that are inserted. -/
def insertLines (lines : List Act) (inserted : ℤ) : Delta where
  file := "\x01h06793\n".toList ++ oneDelta
  lockit := true
  first := List.replicate 8 .getline ++ [.chkeof]
  tries := []
  last := secondDelta ++ (lines ++ [.putline (some "\x01E 2\n".toList)])
  orig := 0
  inserted := inserted
  deleted := 0

instance : (j : Job) → Decidable j.Fits
  | .delta _ => inferInstanceAs (Decidable (_ ∧ _))
  | .rmchg _ _ => inferInstanceAs (Decidable (_ = _))

/-- A line is inserted in one file, and a comment changed in another. -/
def twoFiles : List Job :=
  [.delta (insertLines [.putline (some "x\n".toList)] 1),
    .rmchg ("\x01h06793\n".toList ++ oneDelta)
      [.getline, .getline, .putline (some "\x01c new\n".toList)]]

theorem twoFiles_run : (runs Sys.start twoFiles).length = 2 ∧
    ∀ r ∈ runs Sys.start twoFiles, r.1.Verified r.2 := by
  have hfits : (runs Sys.start twoFiles).all (fun r => decide r.1.Fits) = true := by decide +kernel
  refine ⟨by decide +kernel, fun r hr => ?_⟩
  exact (updates_verify twoFiles r hr).mpr (of_decide_eq_true (all_eq_true.mp hfits r hr))

/-- What matters for the end of the old file. -/
def Sys.Reads (s : Sys) : Prop :=
  s.p_iop.isSome ∧ s.p_chkeof = true ∧ s.p_reopen = false ∧ s.do_chksum = false

instance (s : Sys) : Decidable s.Reads := inferInstanceAs (Decidable (_ ∧ _))

/-- `putline` does not read. -/
theorem putline_keeps (s : Sys) (newline : Option Str) : (s.putline newline).p_iop = s.p_iop ∧
    (s.putline newline).p_chkeof = s.p_chkeof ∧ (s.putline newline).p_reopen = s.p_reopen ∧
    (s.putline newline).do_chksum = s.do_chksum := by
  unfold Sys.putline
  split
  · exact ⟨rfl, rfl, rfl, rfl⟩
  · dsimp only
    cases s.Xcreate <;> cases newline
    case isFalse.false.some p | isFalse.true.some p => exact ⟨rfl, rfl, rfl, rfl⟩
    all_goals
      by_cases hw : s.p_wrttn = 0
      · simp [hw, Sys.fputs]
      · simp [hw]

theorem Sys.Reads.putline (h : s.Reads) (newline : Option Str) : (s.putline newline).Reads := by
  obtain ⟨h1, h2, h3, h4⟩ := putline_keeps s newline
  unfold Sys.Reads
  rw [h1, h2, h3, h4]
  exact h

/-- Lines that are written one after the other. -/
theorem exec_putlines {as : List Act} (hall : ∀ a ∈ as, ∃ newline, a = .putline newline) :
    ∀ {s : Sys}, s.Reads → ∃ t, exec Sys.act s as = some t ∧ t.Reads := by
  induction as with
  | nil => exact fun {s} h => ⟨s, rfl, h⟩
  | cons a as ih =>
    intro s h
    obtain ⟨⟨newline, rfl⟩, hrest⟩ := forall_mem_cons.mp hall
    obtain ⟨t, ht, hr⟩ := ih hrest (h.putline newline)
    exact ⟨t, exec_cons.mpr ⟨_, rfl, ht⟩, hr⟩

theorem drainLoop_total (k : ℕ) : ∀ s : Sys, s.Reads → (s.p_iop.getD []).length < k →
    (Sys.drainLoop k s).isSome := by
  induction k with
  | zero => exact fun _ _ h => absurd h (Nat.not_lt_zero _)
  | succ k ih =>
    intro s hs hlen
    obtain ⟨u, hu⟩ : ∃ u, u = if s.p_wrttn = 0 then s.putline none else s := ⟨_, rfl⟩
    have hr : u.Reads ∧ u.p_iop = s.p_iop := by
      rw [hu]
      split
      · exact ⟨hs.putline none, (putline_keeps s none).1⟩
      · exact ⟨hs, rfl⟩
    obtain ⟨⟨hio, hk, hre, hdo⟩, hsame⟩ := hr
    obtain ⟨file, hfile⟩ := isSome_iff_exists.mp hio
    rw [← hsame, hfile] at hlen
    unfold Sys.drainLoop
    rw [getline_eq, ← hu]
    unfold Sys.fill
    simp only [hfile]
    by_cases hf : file = []
    · simp only [hf, if_true]
      unfold Sys.atEof
      simp [hre, hk, hdo]
    · simp only [hf, if_false]
      have hleft := fgets_left (n := BUFSIZ - 1) (by decide) hf
      exact ih _ ⟨rfl, hk, hre, hdo⟩ (Nat.lt_of_lt_of_le hleft (Nat.le_of_lt_succ hlen))

/-- `delta` writes a new file, however many lines are inserted. -/
theorem insertLines_run {lines : List Act} (hall : ∀ a ∈ lines, ∃ newline, a = .putline newline)
    (inserted : ℤ) :
    ∃ t, (Job.run Sys.start (.delta (insertLines lines inserted))).1 = some t := by
  have hfirst : ((Sys.start.sinit ("\x01h06793\n".toList ++ oneDelta)).bind fun s =>
      (exec Sys.act { s with p_reopen := true } (List.replicate 8 .getline ++ [.chkeof])).bind fun s =>
        s.drain.bind fun s => { s with p_upd := true, p_wrttn := 1 }.getline.bind fun r =>
          exec Sys.act (({ r.2 with p_wrttn := 1 }.putline Sys.headline0).putline Sys.statsline0)
            secondDelta).any (fun s => decide s.Reads) = true := by decide +kernel
  obtain ⟨v, hv, hreads⟩ := (any_eq_true _ _).mp hfirst
  obtain ⟨s₁, h₁, hv⟩ := bind_eq_some_iff.mp hv
  obtain ⟨s₂, h₂, hv⟩ := bind_eq_some_iff.mp hv
  obtain ⟨s₃, h₃, hv⟩ := bind_eq_some_iff.mp hv
  obtain ⟨⟨b, s₄⟩, h₄, hv⟩ := bind_eq_some_iff.mp hv
  have hall' : ∀ a ∈ lines ++ [.putline (some "\x01E 2\n".toList)], ∃ newline, a = .putline newline := by
    intro a ha
    rcases mem_append.mp ha with ha | ha
    · exact hall a ha
    · exact ⟨_, mem_singleton.mp ha⟩
  obtain ⟨w, hw, hwr⟩ := exec_putlines hall' (of_decide_eq_true hreads)
  obtain ⟨x, hx⟩ := isSome_iff_exists.mp (drainLoop_total _ w hwr (Nat.lt_succ_self _))
  have hattempt : s₃.attempt (insertLines lines inserted).last = some x := by
    refine bind_eq_some_iff.mpr ⟨(b, s₄), h₄, ?_⟩
    refine bind_eq_some_iff.mpr ⟨w, exec_append.mpr ⟨v, hv, hw⟩, ?_⟩
    rw [if_pos hwr.1]
    exact hx
  have hbody : s₁.deltaBody (insertLines lines inserted) =
      some (x.flushline (some (insertLines lines inserted).stats)) :=
    bind_eq_some_iff.mpr ⟨s₂, h₂, bind_eq_some_iff.mpr ⟨s₃, h₃,
      map_eq_some_iff.mpr ⟨x, hattempt, rfl⟩⟩⟩
  have hfile : (insertLines lines inserted).file = "\x01h06793\n".toList ++ oneDelta := rfl
  have hlock : (insertLines lines inserted).lockit = true := rfl
  refine ⟨x.flushline (some (insertLines lines inserted).stats), ?_⟩
  simp only [Job.run, hfile, h₁, hlock, if_true, hbody]

theorem runs_singleton (h : (j.run s).1 = some t) : runs s [j] = [(j, t)] := by
  unfold runs
  rw [h]
  rfl

/-- The actions for a hundred thousand lines. -/
def manyLines : List Act := List.replicate 100000 (.putline (some "x\n".toList))

/-- **A hundred thousand lines, and a short sum.**  The new file of a `delta` that inserts 100000 lines,
and that of a `cdc` for a file whose sum has four digits, is not what was written. -/
theorem manyLines_run :
    (∃ t, runs Sys.start [.delta (insertLines manyLines 100000)] =
      [(.delta (insertLines manyLines 100000), t)] ∧
      ¬ (Job.delta (insertLines manyLines 100000)).Verified t) ∧
    ∃ t, runs Sys.start [.rmchg ("\x01h6793\n".toList ++ oneDelta) []] =
      [(.rmchg ("\x01h6793\n".toList ++ oneDelta) [], t)] ∧
      ¬ (Job.rmchg ("\x01h6793\n".toList ++ oneDelta) []).Verified t := by
  constructor
  · obtain ⟨t, ht⟩ := insertLines_run
      (fun a ha => ⟨_, eq_of_mem_replicate ha⟩) 100000
    refine ⟨t, runs_singleton ht, fun hv => ?_⟩
    have hfits := ((Job.run_spec rfl).2 t ht).mp hv
    exact absurd hfits.1 (by decide)
  · have hrun : (Job.run Sys.start (.rmchg ("\x01h6793\n".toList ++ oneDelta) [])).1.isSome = true := by
      decide +kernel
    obtain ⟨t, ht⟩ := isSome_iff_exists.mp hrun
    refine ⟨t, runs_singleton ht, fun hv => ?_⟩
    exact absurd (((Job.run_spec rfl).2 t ht).mp hv) (by decide +kernel)

end Cmd.Sccs
