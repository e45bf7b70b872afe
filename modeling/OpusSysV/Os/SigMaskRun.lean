import OpusSysV.Os.SigMask
import Mathlib.Data.Finset.Lattice.Lemmas

/-!
# Signal masks over whole runs

* `Inv` — the masks of the process are what masks are for.
* `Meets` — what runs have to avoid: that a `sigsuspend` ends without a handler, and that `sigaction`
  makes a held signal ignored.
* `mask_run` — every other run.
-/

namespace Os.Sig

open Lib Function List

variable {s t : Proc} {e : Event} {n : ℕ} {room : Bool}

/-! ## The routines -/

theorem fsig_spec (h : s.fsig = some n) : n ∈ s.p_sig ∧ n ∉ s.p_hold := by
  have hd := List.find?_some h
  exact of_decide_eq_true hd

/-- `issig` changes nothing but what is pending. -/
theorem issigLoop_spec (k : ℕ) : ∀ s : Proc,
    ∃ p_sig, (Proc.issigLoop k s).2 = { s with p_sig := p_sig } ∧
      ∀ n ∈ (Proc.issigLoop k s).1, (Proc.issigLoop k s).2.fsig = some n ∧ s.takes n = true := by
  induction k with
  | zero => exact fun s => ⟨s.p_sig, rfl, fun _ h => nomatch h⟩
  | succ k ih =>
    intro s
    unfold Proc.issigLoop
    cases hf : s.fsig with
    | none => exact ⟨s.p_sig, rfl, fun _ h => nomatch h⟩
    | some n =>
      dsimp only
      split
      next ht => exact ⟨s.p_sig, rfl, fun m hm => by cases hm; exact ⟨hf, ht⟩⟩
      next =>
        obtain ⟨p_sig, hp, hn⟩ := ih { s with p_sig := s.p_sig.erase n }
        exact ⟨p_sig, hp, hn⟩

theorem issig_spec (s : Proc) : ∃ p_sig, s.issig.2 = { s with p_sig := p_sig } ∧
    ∀ n ∈ s.issig.1, s.issig.2.fsig = some n ∧ s.takes n = true := issigLoop_spec 64 s

/-- A signal that is taken from a process that is not traced is not ignored. -/
theorem takes_spec (h : s.takes n = true) (hS : s.STRC = false) : s.u_signal n ≠ .SIG_IGN := by
  unfold Proc.takes at h
  split at h
  · exact (of_decide_eq_true h).1
  · split at h
    · exact (of_decide_eq_true h).2
    · rw [hS] at h
      simpa using h

/-- The signals that are pending and not held. -/
def Proc.ready (s : Proc) : List ℕ :=
  (List.range' 1 64).filter fun n => n ∈ s.p_sig ∧ n ∉ s.p_hold

theorem mem_ready : n ∈ s.ready ↔ (1 ≤ n ∧ n ≤ 64) ∧ n ∈ s.p_sig ∧ n ∉ s.p_hold := by
  unfold Proc.ready
  have hr : 1 ≤ n ∧ n < 1 + 64 ↔ 1 ≤ n ∧ n ≤ 64 := by omega
  rw [mem_filter, mem_range'_1, decide_eq_true_eq, hr]

theorem fsig_ready (h : s.fsig = some n) : n ∈ s.ready :=
  mem_ready.mpr ⟨by
    have hm := mem_of_find?_eq_some h
    rw [mem_range'_1] at hm
    omega, fsig_spec h⟩

/-- The signals that are ready are one less when one is thrown away. -/
theorem ready_erase (h : n ∈ s.ready) :
    ({ s with p_sig := s.p_sig.erase n }.ready).length < s.ready.length := by
  have hsub : { s with p_sig := s.p_sig.erase n }.ready = s.ready.filter (· ≠ n) := by
    unfold Proc.ready
    rw [filter_filter]
    refine filter_congr fun m _ => ?_
    simp only [Finset.mem_erase, ne_eq, decide_not, Bool.decide_and]
    cases decide (m = n) <;> cases decide (m ∈ s.p_sig) <;> rfl
  rw [hsub]
  exact length_filter_lt_length_iff_exists.mpr ⟨n, h, by simp⟩

/-- `issig` finds a signal when there is one that it takes. -/
theorem issigLoop_isSome (k : ℕ) : ∀ s : Proc, s.ready.length ≤ k → n ∈ s.ready →
    s.takes n = true → (Proc.issigLoop k s).1.isSome := by
  induction k with
  | zero =>
    intro s hk hn _
    rw [length_eq_zero_iff.mp (Nat.le_zero.mp hk)] at hn
    cases hn
  | succ k ih =>
    intro s hk hn ht
    unfold Proc.issigLoop
    cases hf : s.fsig with
    | none =>
      have hno := List.find?_eq_none.mp hf n (mem_filter.mp hn).1
      exact absurd (mem_filter.mp hn).2 hno
    | some m =>
      dsimp only
      split
      next => rfl
      next hm =>
        have hne : n ≠ m := fun h => hm (h ▸ ht)
        obtain ⟨hr, hp, hh⟩ := mem_ready.mp hn
        have hlt := ready_erase (fsig_ready hf)
        exact ih _ (by omega) (mem_ready.mpr ⟨hr, Finset.mem_erase.mpr ⟨hne, hp⟩, hh⟩) ht

theorem issig_isSome (hn : n ∈ s.ready) (ht : s.takes n = true) : s.issig.1.isSome := by
  have hk : s.ready.length ≤ 64 := (length_filter_le _ _).trans_eq length_range'
  exact issigLoop_isSome 64 s hk hn ht

/-! ## The invariant -/

/-- The masks of the process are those of `masks`; `SOMASK` is set from a `sigsuspend` on until it
ends. -/
structure Inv (s : Proc) : Prop where
  hold : s.pc ≠ .exited → s.p_hold = s.masks.mask
  frames : s.frames = s.masks.saved
  suspended : s.pc ≠ .exited → s.masks.suspended = if s.SOMASK then some s.u_oldsig else none
  user : s.pc = .user → s.SOMASK = false
  kill : SIGKILL ∉ s.p_hold
  killSaved : ∀ m ∈ s.frames, SIGKILL ∉ m
  killOld : s.SOMASK = true → SIGKILL ∉ s.u_oldsig
  action : s.u_sigmask = s.masks.action
  killAction : ∀ n, SIGKILL ∉ s.u_sigmask n
  caught : ∀ n a, s.u_signal n = .fn a → n ∈ s.p_chold ∧ n ≠ SIGKILL
  sound : s.masks.sound = true

theorem inv_start {sig hold ign : Finset ℕ} (h : SIGKILL ∉ hold) :
    Inv (Proc.start sig hold ign) := by
  refine ⟨fun _ => rfl, rfl, fun _ => rfl, fun _ => rfl, h, fun _ h => (nomatch h),
    fun h => (nomatch h), rfl, fun _ => Finset.notMem_empty _, fun n a hn => ?_, rfl⟩
  simp only [Proc.start] at hn
  split at hn <;> cases hn

section

variable (h : Inv s)

include h

/-- What is pending, and tracing, do not matter. -/
theorem Inv.congr (hx : s.pc ≠ .exited) {p_sig : Finset ℕ} {STRC SPRSTOP : Bool}
    {SPROCTR : Option (Finset ℕ)} {pc : Pc} (hpc : pc = .user → s.SOMASK = false) :
    Inv { s with p_sig := p_sig, STRC := STRC, SPRSTOP := SPRSTOP, SPROCTR := SPROCTR, pc := pc } :=
  ⟨fun _ => h.hold hx, h.frames, fun _ => h.suspended hx, hpc, h.kill, h.killSaved, h.killOld,
    h.action, h.killAction, h.caught, h.sound⟩

/-- Back in user mode without a handler, when it was not from a `sigsuspend`. -/
theorem Inv.back (hx : s.pc ≠ .exited) (hS : s.SOMASK = false) : Inv s.back := by
  have hsus : s.masks.suspended = none := by rw [h.suspended hx, hS]; rfl
  refine ⟨fun _ => ?_, h.frames, fun _ => ?_, fun _ => hS, h.kill, h.killSaved, h.killOld, h.action,
    h.killAction, h.caught, h.sound⟩
  · show s.p_hold = s.masks.suspended.getD s.masks.mask
    rw [hsus]
    exact h.hold hx
  · show none = if s.SOMASK then some s.u_oldsig else none
    rw [hS]
    rfl

/-- The handler begins with its signal and its mask, and the mask before a `sigsuspend` is kept. -/
theorem Inv.catch_ (hx : s.pc ≠ .exited) (hf : n ∉ s.p_hold) (hc : n ∈ s.p_chold)
    (hk : n ≠ SIGKILL) : Inv (s.catch_ n room) := by
  obtain ⟨u, hu⟩ : ∃ u : Proc, u = { s with
      SOMASK := false, p_hold := insert n s.p_hold ∪ s.u_sigmask n } := ⟨_, rfl⟩
  have hbase : (if s.SOMASK then s.u_oldsig else s.p_hold) = s.masks.base := by
    unfold Masks.base
    rw [h.suspended hx]
    cases s.SOMASK
    · exact h.hold hx
    · rfl
  have hkill : SIGKILL ∉ u.p_hold := by
    rw [hu]
    simp only [Finset.mem_union, Finset.mem_insert, not_or]
    exact ⟨⟨hk.symm, h.kill⟩, h.killAction n⟩
  have hkbase : SIGKILL ∉ s.masks.base := by
    rw [← hbase]
    cases hS : s.SOMASK
    · exact h.kill
    · exact h.killOld hS
  have hcatch : s.catch_ n room =
      if room then { u with frames := s.masks.base :: s.frames, pc := .user }.note (.deliver n)
      else { u with pc := .exited } := by
    rw [hu, ← hbase]
    unfold Proc.catch_
    simp only [hc, if_true]
  rw [hcatch, hu]
  rw [hu] at hkill
  cases room with
  | false =>
    exact ⟨fun h => absurd rfl h, h.frames, fun h => absurd rfl h, fun h => (nomatch h), hkill,
      h.killSaved, fun h => (nomatch h), h.action, h.killAction, h.caught, h.sound⟩
  | true =>
    refine ⟨fun _ => ?_, ?_, fun _ => rfl, fun _ => rfl, hkill, ?_, fun h => (nomatch h), h.action,
      h.killAction, h.caught, ?_⟩
    · show insert n s.p_hold ∪ s.u_sigmask n = insert n (s.masks.mask ∪ s.masks.action n)
      rw [h.hold hx, h.action, Finset.insert_union]
    · exact congrArg (s.masks.base :: ·) h.frames
    · exact forall_mem_cons.mpr ⟨hkbase, h.killSaved⟩
    · show (s.masks.sound && decide (n ∉ s.masks.mask)) = true
      rw [h.sound, ← h.hold hx]
      exact decide_eq_true hf

/-- The end of `psig`, where a `sigsuspend` has to end with a handler or with the process. -/
theorem Inv.psigEnd (hx : s.pc ≠ .exited)
    (hS : s.SOMASK = true → ∃ n, s.fsig = some n ∧ s.u_signal n ≠ .SIG_IGN) :
    Inv (s.psigEnd room) := by
  unfold Proc.psigEnd
  cases hf : s.fsig with
  | none =>
    refine h.back hx (Bool.eq_false_iff.mpr fun hs => ?_)
    obtain ⟨n, hn, _⟩ := hS hs
    rw [hf] at hn
    cases hn
  | some n =>
    have hi : ∀ pc, (pc = .user → s.SOMASK = false) →
        Inv { s with p_sig := s.p_sig.erase n, pc := pc } := fun pc hpc => h.congr hx hpc
    dsimp only
    cases hd : s.u_signal n with
    | SIG_DFL => exact hi .exited nofun
    | SIG_IGN =>
      refine (hi s.pc h.user).back hx (Bool.eq_false_iff.mpr fun hs => ?_)
      obtain ⟨m, hm, hm'⟩ := hS hs
      rw [hf] at hm
      cases hm
      exact hm' hd
    | fn a =>
      obtain ⟨hc, hk⟩ := h.caught n a hd
      exact (hi s.pc h.user).catch_ hx (fsig_spec hf).2 hc hk

/-- `psig`, when it does not stop, finds the signal of `issig`. -/
theorem Inv.psig (hx : s.pc ≠ .exited)
    (hS : s.SOMASK = true → s.stops = false → ∃ n, s.fsig = some n ∧ s.u_signal n ≠ .SIG_IGN) :
    Inv (s.psig room) := by
  unfold Proc.psig
  split
  · exact h.congr hx nofun
  next hstop => exact h.psigEnd hx fun hs => hS hs (Bool.eq_false_iff.mpr hstop)

/-! ## The conditions -/

/-- What runs have to meet: a signal that `sigaction` makes ignored is not held, and a `sigsuspend`
ends with a signal that is not ignored, or with a stop. -/
def Meets (s : Proc) : Event → Prop
  | .sigaction sig sa _ =>
    sa.sa_handler = .SIG_IGN ∨ sig = SIGCLD ∧ sa.sa_handler = .SIG_DFL → sig ∉ s.p_hold
  | .leave _ => s.SOMASK = true → s.SPRSTOP ∨ ∃ n ∈ s.ready, s.takes n
  | .cont p_sig _ =>
    s.SOMASK = true → ∃ n ∈ { s with p_sig := p_sig }.fsig, s.u_signal n ≠ .SIG_IGN
  | _ => True

instance (s : Proc) : (e : Event) → Decidable (Meets s e)
  | .sigaction _ _ _ | .leave _ | .cont _ _ => inferInstanceAs (Decidable (_ → _))
  | .sigprocmask _ _ | .sigsuspend _ | .sigret | .psignal _ | .wake | .trace _ _ _ =>
    inferInstanceAs (Decidable True)

/-- The end of a trap or a system call. -/
theorem Inv.leave (hx : s.pc ≠ .exited) (hm : Meets s (.leave room)) :
    Inv (s.leave room) := by
  unfold Proc.leave
  split
  next hstop =>
    refine h.psig hx fun _ hs => ?_
    unfold Proc.stops at hs
    simp [hstop] at hs
  next hstop =>
    obtain ⟨p_sig, hp, htake⟩ := issig_spec s
    have hi : Inv s.issig.2 := by
      rw [hp]
      exact h.congr hx h.user
    have hx' : s.issig.2.pc ≠ .exited := by
      rw [hp]
      exact hx
    have hsome : s.SOMASK = true → s.issig.1.isSome := fun hs =>
      match hm hs with
      | .inl h => absurd h hstop
      | .inr ⟨_, hn, ht⟩ => issig_isSome hn ht
    have hSO : s.issig.2.SOMASK = s.SOMASK := by rw [hp]
    revert hi hx' hsome hSO htake hp
    obtain ⟨o, u⟩ := s.issig
    intro hp htake hi hx' hsome hSO
    cases o with
    | none =>
      exact hi.back hx' (Bool.eq_false_iff.mpr fun hs => nomatch hsome (hSO ▸ hs))
    | some n =>
      obtain ⟨hf, ht⟩ := htake n rfl
      refine hi.psig hx' fun _ hs => ⟨n, hf, ?_⟩
      have hST : u.STRC = false := by
        unfold Proc.stops at hs
        simp only [decide_eq_false_iff_not, not_or] at hs
        exact Bool.eq_false_iff.mpr hs.2.1
      dsimp only at hp
      rw [hp] at hST ⊢
      exact takes_spec ht hST

omit h in
/-- `setsigvec` sets the handler and its mask, and a handler is in `p_chold`. -/
theorem setsigvec_spec {sig : ℕ} {sa : Sigaction} (zombie : Bool)
    (hm : sa.sa_handler = .SIG_IGN ∨ sig = SIGCLD ∧ sa.sa_handler = .SIG_DFL → sig ∉ s.p_hold) :
    ∃ handler p_sig p_chold, s.setsigvec sig sa zombie =
      ({ s with
        p_sig := p_sig
        p_chold := p_chold
        u_signal := update s.u_signal sig handler
        u_sigmask := update s.u_sigmask sig (sa.sa_mask.erase SIGKILL) }.note
          (.sigaction sig sa.sa_mask)) ∧
      s.p_chold ⊆ p_chold ∧ ∀ a, handler = .fn a → sig ∈ p_chold := by
  obtain ⟨handler, hhandler⟩ : ∃ handler, handler =
      if sig = SIGCLD ∧ sa.nocldstop ∧ sa.sa_handler = .SIG_DFL then .SIG_IGN else sa.sa_handler :=
    ⟨_, rfl⟩
  have herase : handler = .SIG_IGN ∨ sig = SIGCLD ∧ handler = .SIG_DFL →
      s.p_hold.erase sig = s.p_hold := by
    refine fun hor => Finset.erase_eq_of_notMem (hm ?_)
    rw [hhandler] at hor
    split at hor
    next hc => exact .inr ⟨hc.1, hc.2.2⟩
    next => exact hor
  unfold Proc.setsigvec
  rw [← hhandler]
  dsimp only [Proc.note]
  -- the erased and the added pending signals are `p_sig`, and the new handler is in `p_chold`
  cases handler with
  | SIG_IGN =>
    simp only [herase (.inl rfl), true_or, if_true, ne_eq, not_true_eq_false, false_and, if_false]
    split
    · exact ⟨.SIG_IGN, _, s.p_chold, rfl, Finset.Subset.refl _, nofun⟩
    · exact ⟨.SIG_IGN, _, s.p_chold, rfl, Finset.Subset.refl _, nofun⟩
  | SIG_DFL =>
    simp only [ne_eq, not_true_eq_false, and_false, if_false, reduceCtorEq, false_or, and_true]
    by_cases hs : sig = SIGCLD
    · simp only [hs ▸ herase (.inr ⟨hs, rfl⟩), hs, if_true]
      split
      · exact ⟨.SIG_DFL, _, s.p_chold, rfl, Finset.Subset.refl _, nofun⟩
      · exact ⟨.SIG_DFL, _, s.p_chold, rfl, Finset.Subset.refl _, nofun⟩
    · simp only [hs, if_false, false_and]
      exact ⟨.SIG_DFL, _, s.p_chold, rfl, Finset.Subset.refl _, nofun⟩
  | fn a =>
    simp only [reduceCtorEq, and_false, or_self, if_false, ne_eq, not_false_eq_true, and_self,
      if_true]
    have hin : ∀ b, Handler.fn a = .fn b → sig ∈ insert sig s.p_chold :=
      fun _ _ => Finset.mem_insert_self _ _
    split
    · exact ⟨.fn a, _, insert sig s.p_chold, rfl, Finset.subset_insert _ _, hin⟩
    · exact ⟨.fn a, _, insert sig s.p_chold, rfl, Finset.subset_insert _ _, hin⟩

/-- `sigaction` keeps the held signals when it does not ignore one of them. -/
theorem Inv.sigaction (hx : s.pc ≠ .exited) {sig : ℕ} {sa : Sigaction} {zombie : Bool}
    (hm : Meets s (.sigaction sig sa zombie)) : Inv (s.sigaction sig sa zombie) := by
  unfold Proc.sigaction
  split
  · exact h
  next hsig =>
  have hk : sig ≠ SIGKILL := fun hk => hsig (.inr (.inr (.inr hk)))
  obtain ⟨handler, p_sig, p_chold, heq, hsub, hfn⟩ := setsigvec_spec zombie hm
  rw [heq]
  refine ⟨fun _ => h.hold hx, h.frames, fun _ => h.suspended hx, h.user, h.kill, h.killSaved,
    h.killOld, ?_, fun n => ?_, fun n a hn => ?_, h.sound⟩
  · exact congrArg (fun f => update f sig (sa.sa_mask.erase SIGKILL)) h.action
  · by_cases hn : n = sig
    · subst hn
      simp [Proc.note]
    · simpa [Proc.note, hn] using h.killAction n
  · by_cases hns : n = sig
    · subst hns
      exact ⟨hfn a (by simpa [Proc.note] using hn), hk⟩
    · obtain ⟨hc, hk'⟩ := h.caught n a (by simpa [Proc.note, hns] using hn)
      exact ⟨hsub hc, hk'⟩

omit h in
theorem newmask_kill {how : ℤ} {set hold : Finset ℕ} (h : SIGKILL ∉ hold) :
    SIGKILL ∉ newmask how set hold := by
  unfold newmask
  split_ifs <;> simp [h]

theorem Inv.sigprocmask (hx : s.pc ≠ .exited) {how : ℤ} {set : Finset ℕ} :
    Inv (s.sigprocmask how set) :=
  ⟨fun _ => congrArg (newmask how set) (h.hold hx), h.frames, fun _ => h.suspended hx, h.user,
    newmask_kill h.kill, h.killSaved, h.killOld, h.action, h.killAction, h.caught, h.sound⟩

theorem Inv.sigsuspend (hx : s.pc ≠ .exited) {mask : Finset ℕ} :
    Inv (s.sigsuspend mask) :=
  ⟨fun _ => rfl, h.frames, fun _ => congrArg some (h.hold hx).symm, nofun, Finset.notMem_erase _ _,
    h.killSaved, fun _ => h.kill, h.action, h.killAction, h.caught, h.sound⟩

/-- A handler returns to the mask that was kept for it. -/
theorem Inv.sigret (hx : s.pc ≠ .exited) (ht : s.sigret = some t) : Inv t := by
  unfold Proc.sigret at ht
  split at ht
  next retmask frames hfr =>
    cases ht
    have hkill := forall_mem_cons.mp (hfr ▸ h.killSaved)
    have hsaved : s.masks.saved = retmask :: frames := h.frames.symm.trans hfr
    unfold Proc.note Masks.note
    rw [hsaved]
    exact ⟨fun _ => Finset.erase_eq_of_notMem hkill.1, rfl, fun _ => h.suspended hx, h.user,
      Finset.notMem_erase _ _, hkill.2, h.killOld, h.action, h.killAction, h.caught, h.sound⟩
  next => cases ht

/-! ## Runs -/

omit h in
theorem psignal_spec (s : Proc) (sig : ℕ) : ∃ p_sig, s.psignal sig = { s with p_sig := p_sig } := by
  unfold Proc.psignal
  split
  · exact ⟨s.p_sig, rfl⟩
  · exact ⟨_, rfl⟩

/-- One step. -/
theorem Inv.step (hm : Meets s e) (hs : s.step e = some t) : Inv t := by
  have huser : ∀ {u}, s.call u = some t → s.pc ≠ .exited ∧ t = u := by
    intro u hu
    unfold Proc.call at hu
    split at hu
    next hpc => cases hu; exact ⟨fun hx => (nomatch hpc.symm.trans hx), rfl⟩
    next => cases hu
  cases e with
  | sigprocmask how set =>
    obtain ⟨hx, rfl⟩ := huser hs
    exact h.sigprocmask hx
  | sigaction sig sa zombie =>
    obtain ⟨hx, rfl⟩ := huser hs
    exact h.sigaction hx hm
  | sigsuspend mask =>
    obtain ⟨hx, rfl⟩ := huser hs
    exact h.sigsuspend hx
  | sigret =>
    simp only [Proc.step] at hs
    split at hs
    next hpc => exact h.sigret (fun hx => nomatch hpc.symm.trans hx) hs
    next => cases hs
  | psignal sig =>
    simp only [Proc.step] at hs
    split at hs
    next => cases hs
    next hx =>
      cases hs
      obtain ⟨p_sig, hp⟩ := psignal_spec s sig
      rw [hp]
      exact h.congr hx h.user
  | wake =>
    simp only [Proc.step] at hs
    split at hs
    next hpc =>
      have hx : s.pc ≠ .exited := fun hx => nomatch hpc.symm.trans hx
      split at hs
      · cases hs
        exact h.congr hx nofun
      · split at hs
        next n u hu =>
          cases hs
          obtain ⟨p_sig, hp, _⟩ := issig_spec s
          rw [hu] at hp
          dsimp only at hp
          rw [hp]
          exact h.congr hx nofun
        next => cases hs
    next => cases hs
  | leave room =>
    simp only [Proc.step] at hs
    split at hs
    next hpc =>
      cases hs
      refine h.leave (fun hx => ?_) hm
      rw [hx] at hpc
      exact hpc.elim nofun nofun
    next => cases hs
  | cont p_sig room =>
    simp only [Proc.step] at hs
    split at hs
    next hpc =>
      cases hs
      have hx : s.pc ≠ .exited := fun hx => nomatch hpc.symm.trans hx
      have hi : Inv { s with p_sig := p_sig } := h.congr hx h.user
      exact hi.psigEnd hx hm
    next => cases hs
  | trace STRC SPRSTOP SPROCTR =>
    simp only [Proc.step] at hs
    split at hs
    next => cases hs
    next hx =>
      cases hs
      exact h.congr hx h.user

end

/-- **Masks are saved and restored.**  In each run that starts after `exec` and in which no
`sigaction` makes a held signal ignored and each `sigsuspend` ends with a signal that is not ignored
or with a stop, the process always holds what it should: the mask of `sigprocmask`, that of a
`sigsuspend` until it ends, and those of the handlers that have begun until they return.  `SIGKILL` is
never held, and no held signal was delivered. -/
theorem mask_run {sig hold ign : Finset ℕ} {es : List Event} (hk : SIGKILL ∉ hold)
    (hm : StepsMeet Meets Proc.step (Proc.start sig hold ign) es)
    (ht : exec Proc.step (Proc.start sig hold ign) es = some t) :
    SIGKILL ∉ t.p_hold ∧ t.masks.sound = true ∧ t.frames = t.masks.saved ∧
      (t.pc ≠ .exited → t.p_hold = t.masks.mask) ∧
      (t.pc = .user → t.masks.suspended = none) := by
  have h : Inv t := exec_invariant (P := Inv) (fun _ _ _ h hm hs => h.step hm hs) (inv_start hk) hm ht
  refine ⟨h.kill, h.sound, h.frames, h.hold, fun hu => ?_⟩
  rw [h.suspended (by rw [hu]; nofun), h.user hu]
  rfl

/-- A handler that ends a `sigsuspend`: the signal is held, but not by the mask that the process waits
with. -/
def handled : List Event :=
  [.sigprocmask 0 {16}, .sigaction 16 ⟨.fn 4096, {17}, false⟩ false, .sigsuspend ∅, .psignal 16, .wake,
    .leave true, .sigret]

theorem handled_run : ∃ t, exec Proc.step (Proc.start ∅ ∅ ∅) handled = some t ∧
    (t.pc = .user ∧ t.p_hold = {16}) ∧
    SIGKILL ∉ t.p_hold ∧ t.masks.sound = true ∧ t.frames = t.masks.saved ∧
      (t.pc ≠ .exited → t.p_hold = t.masks.mask) ∧
      (t.pc = .user → t.masks.suspended = none) := by
  have hrun : (exec Proc.step (Proc.start ∅ ∅ ∅) handled).any (fun t =>
      decide (t.pc = .user ∧ t.p_hold = {16})) = true := by decide +kernel
  obtain ⟨t, ht, hd⟩ := (Option.any_eq_true _ _).mp hrun
  have hmeets : StepsMeet Meets Proc.step (Proc.start ∅ ∅ ∅) handled :=
    stepsMeet_of_allSteps (c := fun s e => decide (Meets s e)) (fun _ _ => of_decide_eq_true)
      (by decide +kernel)
  exact ⟨t, ht, of_decide_eq_true hd, mask_run (Finset.notMem_empty _) hmeets ht⟩

/-- A tracer takes the signal away that ends a `sigsuspend`. -/
def removed : List Event :=
  [.sigprocmask 0 {16}, .trace true false none, .sigsuspend ∅, .psignal 16, .wake, .leave true,
    .cont ∅ true]

/-- `sigaction` ignores a signal that is held. -/
def ignored : List Event := [.sigprocmask 0 {16}, .sigaction 16 ⟨.SIG_IGN, ∅, false⟩ false]

/-- **A mask that does not come back, and one that is changed.**  In both runs the process is in user
mode without a handler and should hold the signal 16 of its `sigprocmask`, and it holds no signal. -/
theorem removed_run :
    (∃ t, exec Proc.step (Proc.start ∅ ∅ ∅) removed = some t ∧
      t.pc = .user ∧ t.masks.mask = {16} ∧ t.masks.saved = [] ∧ t.p_hold = ∅ ∧ t.SOMASK = true) ∧
    ∃ t, exec Proc.step (Proc.start ∅ ∅ ∅) ignored = some t ∧
      t.pc = .user ∧ t.masks.mask = {16} ∧ t.masks.saved = [] ∧ t.p_hold = ∅ := by
  have hremoved : (exec Proc.step (Proc.start ∅ ∅ ∅) removed).any (fun t =>
      decide (t.pc = .user ∧ t.masks.mask = {16} ∧ t.masks.saved = [] ∧ t.p_hold = ∅ ∧
        t.SOMASK = true)) = true := by decide +kernel
  have hignored : (exec Proc.step (Proc.start ∅ ∅ ∅) ignored).any (fun t =>
      decide (t.pc = .user ∧ t.masks.mask = {16} ∧ t.masks.saved = [] ∧ t.p_hold = ∅)) = true := by
    decide +kernel
  obtain ⟨t, ht, hd⟩ := (Option.any_eq_true _ _).mp hremoved
  obtain ⟨u, hu, hu'⟩ := (Option.any_eq_true _ _).mp hignored
  exact ⟨⟨t, ht, of_decide_eq_true hd⟩, u, hu, of_decide_eq_true hu'⟩

end Os.Sig
