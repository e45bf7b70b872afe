import OpusSysV.Lib.Run

/-!
# Tentative runs and their rollback

Operations are carried out one after the other on the state itself, and taken back
in reverse when a later one cannot be done.  Taking one back may happen in a state
that is only equivalent to the one the operation left behind, as long as what it
gives is equivalent to the state before: `Undoes` asks this of one operation and
`rollback` proves it of a whole run.
-/

namespace Lib

variable {σ α : Type*}

/-- Take operations back, the last one first; the list starts with the last one. -/
def takeBack (undo : α → σ → σ) : List α → σ → σ
  | [], s => s
  | a :: done, s => takeBack undo done (undo a s)

/-- On states with `P`, undoing an operation from any state equivalent to its result
leads back to a state equivalent to the one before it. -/
structure Undoes (P : σ → Prop) (R : σ → σ → Prop) (apply : σ → α → Option σ)
    (undo : α → σ → σ) : Prop where
  keeps : ∀ {s a t}, P s → apply s a = some t → P t
  back : ∀ {s a t u}, P s → apply s a = some t → R t u → R s (undo a u)

variable {P : σ → Prop} {R : σ → σ → Prop} {apply : σ → α → Option σ} {undo : α → σ → σ}
  {s t u : σ} {as : List α}

/-- What each operation preserves, the run of them preserves. -/
theorem Undoes.keeps_exec (h : Undoes P R apply undo) (hs : P s) (hrun : exec apply s as = some t) :
    P t :=
  exec_invariant' (fun _ _ _ => h.keeps) hs hrun

theorem takeBack_append (as bs : List α) :
    takeBack undo (as ++ bs) s = takeBack undo bs (takeBack undo as s) := by
  induction as generalizing s with
  | nil => rfl
  | cons a as ih => exact ih

/-- **Rolling back a run** from any state equivalent to its last one leads to a state
equivalent to its first one. -/
theorem Undoes.rollback (h : Undoes P R apply undo) (hs : P s) (hrun : exec apply s as = some t)
    (hu : R t u) : R s (takeBack undo as.reverse u) := by
  induction as generalizing s with
  | nil => cases hrun; exact hu
  | cons a as ih =>
    obtain ⟨v, hv, hrun⟩ := exec_cons.mp hrun
    rw [List.reverse_cons, takeBack_append]
    exact h.back hs hv (ih (h.keeps hs hv) hrun)

end Lib
