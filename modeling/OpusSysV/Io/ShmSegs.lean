import OpusSysV.Io.ShmSteps

/-!
# Each step keeps the invariant of the segments

* `Meets` — no identifier is removed while a call on it sleeps.
* `Inv.shmat`, `Inv.rmid`, `Inv.shmctl`, `Inv.shmdt`, `Inv.resume` — the calls, up to where they sleep.
* `Inv.step` — **each step keeps the invariant**.
-/

namespace Io.Shm

open Function Option
open Lib

variable {c : Tune} {s t u : Sys} {p q r i j n : ℕ} {id : ℤ} {mem : ℤ} {a : Answers} {e : Event}

/-- No identifier is removed while a `shmat` or a `shmctl` sleeps that was given it. -/
def Meets (c : Tune) (s : Sys) : Event → Prop
  | .rmid _ id => ∀ i, s.shmconv c id = some i → ∀ q, (s.call q).slot ≠ some i
  | _ => True

theorem quiet_of_idle (hp : s.call p = .idle) (r : ℕ) : Quiet r (s.call p) := hp ▸ quiet_idle r

theorem about_of_idle (hp : s.call p = .idle) (r : ℕ) : About r (s.call p).region := hp ▸ about_none r

section

variable (h : Inv c mem s)

include h

theorem Inv.shmat (hp : s.call p = .idle) (ht : s.shmat c p id a = some t) :
    Inv c mem t := by
  have hret : Inv c mem (s.setCall p .idle) := h.setCall (quiet_of_idle hp) quiet_idle trivial nofun
  unfold Sys.shmat at ht
  split at ht
  · cases ht
    exact hret
  next i hi =>
    split at ht
    · cases ht
      exact hret
    · split at ht
      · cases ht
      next r hr =>
        have hn : Names c s id i r := ⟨hi, hr⟩
        split at ht
        · cases ht
          exact h.setCall (quiet_of_idle hp) (fun _ => ⟨nofun, nofun⟩) hn
            fun x hx => Option.some.inj hx ▸ hn.live h
        next hlock =>
          cases ht
          exact h.atLocked hn (Bool.eq_false_iff.mpr hlock) (quiet_of_idle hp) (about_of_idle hp r)

theorem Inv.rmid (hp : s.call p = .idle) (hm : Meets c s (.rmid p id))
    (ht : s.rmid c p id = some t) : Inv c mem t := by
  unfold Sys.rmid at ht
  split at ht
  · cases ht
    exact h
  next i hi =>
    split at ht
    · cases ht
    next r hr =>
      have hrem := @Inv.remove c s p r i id mem h ⟨false, false,
        Sys.nextSeq c i (s.shmem i).seq, 0, none, (s.shmem i).shm_lpid⟩ hr hp (hm i hi) ⟨rfl, rfl⟩
      dsimp only at ht
      split at ht
      · cases ht
        exact hrem
      next hlock =>
        cases ht
        have hgo := hrem.rmidLocked (call_self (s := s) rfl) (Bool.eq_false_iff.mpr hlock)
        rw [← rmidLocked_setCall _ p r (.rmid id r)]
        exact hgo

theorem Inv.shmctl {cmd : Cmd} (hp : s.call p = .idle)
    (ht : s.shmctl c p id cmd = some t) : Inv c mem t := by
  unfold Sys.shmctl at ht
  split at ht
  · cases ht
    exact h
  next i hi =>
    split at ht
    · cases ht
    next r hr =>
      have hn : Names c s id i r := ⟨hi, hr⟩
      split at ht
      · cases ht
        exact h
      next hphys =>
        split at ht
        · cases ht
          exact h.setCall (quiet_of_idle hp) (fun _ => ⟨nofun, nofun⟩) ⟨hn, hphys⟩
            fun x hx => Option.some.inj hx ▸ hn.live h
        next hlock =>
          cases ht
          exact h.ctlLocked (hn.live h) (Bool.eq_false_iff.mpr hlock) hphys (quiet_of_idle hp)
            (about_of_idle hp r)

theorem Inv.shmdt (hp : s.call p = .idle) (ht : s.shmdt c p r = some t) :
    Inv c mem t := by
  unfold Sys.shmdt at ht
  split at ht
  next hmem =>
    split at ht
    · cases ht
      refine h.setCall (quiet_of_idle hp) (fun _ => ⟨nofun, nofun⟩) hmem fun x hx => ?_
      rw [← Option.some.inj hx]
      exact (h.region r).resolve_left fun hf => hf.att p hmem
    next hlock =>
      cases ht
      exact h.dtLocked hmem (Bool.eq_false_iff.mpr hlock) (quiet_of_idle hp) (about_of_idle hp r)
  next => cases ht

theorem Inv.resume (ht : s.resume c p a = some t) : Inv c mem t := by
  have hok := h.call p
  unfold Sys.resume at ht
  cases hp : s.call p with
  | idle =>
    rw [hp] at ht
    cases ht
  | get =>
    rw [hp] at hok
    exact hok.elim
  | wait =>
    rw [hp] at hok
    exact hok.elim
  | grow =>
    rw [hp] at ht
    cases ht
  | «at» id i r =>
    rw [hp] at ht hok
    dsimp only at ht
    split at ht
    · cases ht
    next hlock =>
      cases ht
      exact h.atLocked hok (Bool.eq_false_iff.mpr hlock) (fun _ => by rw [hp]; exact ⟨nofun, nofun⟩)
        (hp ▸ about_some r)
  | rmid id r =>
    rw [hp] at ht
    dsimp only at ht
    split at ht
    · cases ht
    next hlock =>
      cases ht
      exact h.rmidLocked hp (Bool.eq_false_iff.mpr hlock)
  | ctl cmd id i r =>
    rw [hp] at ht hok
    dsimp only at ht
    split at ht
    · cases ht
    next hlock =>
      cases ht
      exact h.ctlLocked (hok.1.live h) (Bool.eq_false_iff.mpr hlock) hok.2
        (fun _ => by rw [hp]; exact ⟨nofun, nofun⟩) (hp ▸ about_some r)
  | dt r =>
    rw [hp] at ht hok
    dsimp only at ht
    split at ht
    · cases ht
    next hlock =>
      cases ht
      exact h.dtLocked hok (Bool.eq_false_iff.mpr hlock) (fun _ => by rw [hp]; exact ⟨nofun, nofun⟩)
        (hp ▸ about_some r)

theorem Inv.step (hm : Meets c s e) (ht : step c s e = some t) : Inv c mem t := by
  cases e with
  | shmget p size phys =>
    obtain ⟨hp, ht⟩ := (ite_none_right_eq_some).mp ht
    exact h.shmget hp ht
  | shmat p id a =>
    obtain ⟨hp, ht⟩ := (ite_none_right_eq_some).mp ht
    exact h.shmat hp ht
  | rmid p id =>
    obtain ⟨hp, ht⟩ := (ite_none_right_eq_some).mp ht
    exact h.rmid hp hm ht
  | shmctl p id cmd =>
    obtain ⟨hp, ht⟩ := (ite_none_right_eq_some).mp ht
    exact h.shmctl hp ht
  | shmdt p r =>
    obtain ⟨hp, ht⟩ := (ite_none_right_eq_some).mp ht
    exact h.shmdt hp ht
  | resume p a => exact h.resume ht
  | grown p ok =>
    unfold Shm.step at ht
    dsimp only at ht
    cases hp : s.call p with
    | grow id i r n =>
      rw [hp] at ht
      cases ht
      cases ok with
      | true => exact h.grown hp
      | false => exact h.growFailed hp
    | _ =>
      rw [hp] at ht
      cases ht
  | lock r =>
    obtain ⟨hr, ht⟩ := (ite_none_right_eq_some).mp ht
    cases ht
    exact h.lockRegion hr.1 hr.2
  | unlock r =>
    obtain ⟨hr, ht⟩ := (ite_none_right_eq_some).mp ht
    cases ht
    exact h.unlockRegion hr

end

end Io.Shm
