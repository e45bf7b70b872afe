import Mathlib.Data.List.Basic

/-!
# Reads: what a piece of a program looks at, beside what it computes

* `Reads ρ ε α` — the reads of a piece in their order, and its value or how it ends early.
* `Reads.bind` — a piece, and then what depends on its value.
* `Reads.All` — every read is as a predicate says; `all_bind` takes a sequence apart.
* `Reads.Meets` — the same with a postcondition; `Meets.bind` puts a sequence together.
-/

namespace Lib

open List

/-- The reads of a piece, and what it computes, or what the program returns there. -/
abbrev Reads (ρ ε α : Type) := List ρ × Except ε α

namespace Reads

variable {ρ ε α β : Type} {R : ρ → Prop}

/-- `x`, and then `f`. -/
def bind (x : Reads ρ ε α) (f : α → Reads ρ ε β) : Reads ρ ε β :=
  match x.2 with
  | .error r => (x.1, .error r)
  | .ok a => (x.1 ++ (f a).1, (f a).2)

/-- Nothing is read. -/
def ok (a : α) : Reads ρ ε α := ([], .ok a)

/-- The program returns `r`. -/
def ret (r : ε) : Reads ρ ε α := ([], .error r)

/-- One read, which gives `a`. -/
def one (r : ρ) (a : α) : Reads ρ ε α := ([r], .ok a)

/-- All reads are as `R` says. -/
def All (R : ρ → Prop) (x : Reads ρ ε α) : Prop := ∀ a ∈ x.1, R a

@[simp] theorem all_ok (a : α) : (ok a : Reads ρ ε α).All R := forall_mem_nil _

@[simp] theorem all_ret (r : ε) : (ret r : Reads ρ ε α).All R := forall_mem_nil _

@[simp] theorem bind_ok (a : α) (f : α → Reads ρ ε β) : bind (ok a) f = f a := rfl

theorem bind_one (r : ρ) (a : α) (f : α → Reads ρ ε β) :
    bind (one r a) f = (r :: (f a).1, (f a).2) := rfl

/-- A sequence is safe if its parts are, the second for what the first computes. -/
theorem all_bind {x : Reads ρ ε α} {f : α → Reads ρ ε β} :
    (x.bind f).All R ↔ x.All R ∧ ∀ a, x.2 = .ok a → (f a).All R := by
  obtain ⟨t, r⟩ := x
  cases r with
  | error r =>
    refine ⟨fun h => ⟨h, ?_⟩, fun h => h.1⟩
    rintro a ⟨⟩
  | ok a =>
    unfold All bind
    dsimp only
    rw [forall_mem_append]
    refine and_congr_right fun _ => ⟨fun h b hb => ?_, fun h => h a rfl⟩
    cases hb
    exact h

/-- A read, and then `f` of what was read. -/
theorem all_one {r : ρ} {a : α} {f : α → Reads ρ ε β} :
    (bind (one r a) f).All R ↔ R r ∧ (f a).All R := by
  rw [bind_one]
  exact forall_mem_cons

/-- All reads are as `R` says, and what is computed is as `P` says. -/
def Meets (R : ρ → Prop) (x : Reads ρ ε α) (P : α → Prop) : Prop :=
  x.All R ∧ ∀ a, x.2 = .ok a → P a

variable {P : α → Prop} {Q : β → Prop}

theorem meets_ret (r : ε) : (ret r : Reads ρ ε α).Meets R P := ⟨all_ret r, nofun⟩

theorem meets_ok {a : α} (h : P a) : (ok a : Reads ρ ε α).Meets R P :=
  ⟨all_ok a, fun b hb => by cases hb; exact h⟩

theorem meets_one {r : ρ} {a : α} (hr : R r) (h : P a) : (one r a : Reads ρ ε α).Meets R P :=
  ⟨forall_mem_singleton.2 hr, fun b hb => by cases hb; exact h⟩

theorem Meets.one {r : ρ} {a : α} {f : α → Reads ρ ε β} (hr : R r) (hf : (f a).Meets R Q) :
    (bind (Reads.one r a) f).Meets R Q :=
  ⟨all_one.2 ⟨hr, hf.1⟩, hf.2⟩

theorem Meets.bind {x : Reads ρ ε α} {f : α → Reads ρ ε β} (hx : x.Meets R P)
    (hf : ∀ a, P a → (f a).Meets R Q) : (x.bind f).Meets R Q := by
  refine ⟨all_bind.2 ⟨hx.1, fun a ha => (hf a (hx.2 a ha)).1⟩, fun b hb => ?_⟩
  unfold Reads.bind at hb
  split at hb
  · cases hb
  · next a ha => exact (hf a (hx.2 a ha)).2 b hb

end Reads

end Lib
