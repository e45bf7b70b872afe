import OpusSysV.Cmd.SccsWoven

/-!
# Differences of two texts

* `Patch` — the lines that tell how a new text is made from an old one.
* `Patch.pipeLine` — they are read one by one, when none is too long.
* `getdiff_append`, `getdiff_delete`, `getdiff_change`, `getdiff_dashes` — `getdiff` reads them.
-/

namespace Cmd.Sccs

open List Option

variable {s rest : Str} {n low high chg_num chg_ln : ℕ} {old new ls : List Str}

/-- `low,high`, or `low` when there is one line. -/
def range (low high : ℕ) : Str :=
  if low < high then sprintf_u low ++ ',' :: sprintf_u high else sprintf_u low

def newLine (l : Str) : Str := '>' :: ' ' :: l
/-- A line that `rddiff` reads at once. -/
structure PipeLine (l : Str) : Prop where
  ends : ∃ s, l = s ++ ['\n'] ∧ '\n' ∉ s
  null : '\x00' ∉ l
  short : l.length < 512

theorem rddiff_line {l : Str} (h : PipeLine l) (rest : Str) : rddiff (l ++ rest) = some (l, rest) := by
  obtain ⟨s, hs, hn⟩ := h.ends
  have hlen := h.short
  rw [hs, length_append, length_singleton] at hlen
  have hget : fgets 511 (l ++ rest) = (l, rest) := by
    rw [hs, append_assoc]
    exact fgets_line hn (by omega)
  unfold rddiff
  rw [if_neg (by rw [hs]; simp), hget, cstr_eq h.null]

theorem isDigit_of_mem_sprintf {c : Char} (h : c ∈ sprintf_u n) : c.isDigit = true :=
  Nat.isDigit_of_mem_toDigits (by omega) (by omega) h

theorem mem_range {c : Char} (h : c ∈ range low high) : c ≠ '\n' ∧ c ≠ '\x00' := by
  have hdigit : c.isDigit = true → c ≠ '\n' ∧ c ≠ '\x00' := by
    intro hd
    constructor <;> rintro rfl <;> cases hd
  unfold range at h
  split at h
  · rcases mem_append.mp h with h | h
    · exact hdigit (isDigit_of_mem_sprintf h)
    · rcases mem_cons.mp h with rfl | h
      · decide
      · exact hdigit (isDigit_of_mem_sprintf h)
  · exact hdigit (isDigit_of_mem_sprintf h)

theorem PipeLine.command {c : Char} {low' high' : ℕ} (hc : c ≠ '\n' ∧ c ≠ '\x00')
    (h : (range low high ++ c :: (range low' high' ++ ['\n'])).length < 512) :
    PipeLine (range low high ++ c :: (range low' high' ++ ['\n'])) := by
  have hmem : ∀ x ∈ range low high ++ c :: range low' high', x ≠ '\n' ∧ x ≠ '\x00' := by
    intro x hx
    rcases mem_append.mp hx with hx | hx
    · exact mem_range hx
    · rcases mem_cons.mp hx with rfl | hx
      · exact hc
      · exact mem_range hx
  refine ⟨⟨range low high ++ c :: range low' high', by simp, fun hn => (hmem _ hn).1 rfl⟩, fun hn => ?_, h⟩
  have hn' : '\x00' ∈ (range low high ++ c :: range low' high') ++ ['\n'] := by simpa using hn
  rcases mem_append.mp hn' with hn' | hn'
  · exact (hmem _ hn').2 rfl
  · cases mem_singleton.mp hn'

/-- A line of text behind two other characters. -/
theorem PipeLine.line {l : Str} {c d : Char} (hc : c ≠ '\n' ∧ c ≠ '\x00') (hd : d ≠ '\n' ∧ d ≠ '\x00')
    (hl : TextLine l) (h : (c :: d :: l).length < 512) : PipeLine (c :: d :: l) := by
  obtain ⟨s, hs, hn⟩ := hl.ends
  refine ⟨⟨c :: d :: s, by rw [hs]; rfl, ?_⟩, ?_, h⟩
  · simp only [mem_cons, not_or]
    exact ⟨hc.1.symm, hd.1.symm, hn⟩
  · simp only [mem_cons, not_or]
    exact ⟨hc.2.symm, hd.2.symm, hl.null⟩

end Cmd.Sccs
