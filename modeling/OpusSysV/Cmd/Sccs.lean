import OpusSysV.Lib.Run
import Mathlib.Data.List.Basic
import Mathlib.Data.List.TakeWhile

/-!
# The lines of SCCS files

What the SCCS commands use to read and to write numbers and lines.

* `fgets`, `cstr` — a line of a file, and a string up to its null character.
* `satoi`, `sprintf_u` — a number that is read, and one that is written.
-/

namespace Cmd.Sccs

open List

/-- A string, or what is in a file. -/
abbrev Str := List Char

def CTLCHAR : Char := '\x01'
def BUFSIZ : ℕ := 1024

/-! ## Lines -/

/-- `fgets`, with room for `n` characters besides the null character: what is read, and what is left of
the file. -/
def fgets : ℕ → Str → Str × Str
  | 0, file => ([], file)
  | _ + 1, [] => ([], [])
  | n + 1, c :: file =>
    if c = '\n' then ([c], file) else (c :: (fgets n file).1, (fgets n file).2)

/-- The string that begins at the start of a buffer. -/
def cstr (s : Str) : Str := s.takeWhile (· ≠ '\x00')

theorem fgets_append (n : ℕ) : ∀ file, (fgets n file).1 ++ (fgets n file).2 = file := by
  induction n with
  | zero => exact fun _ => rfl
  | succ n ih =>
    intro file
    cases file with
    | nil => rfl
    | cons c file =>
      unfold fgets
      split
      · rfl
      · exact congrArg (c :: ·) (ih file)

/-- A line that is not too long is read as it is. -/
theorem fgets_line {n : ℕ} {l file : Str} (hl : '\n' ∉ l) (hn : l.length < n) :
    fgets n (l ++ '\n' :: file) = (l ++ ['\n'], file) := by
  induction n generalizing l with
  | zero => omega
  | succ n ih =>
    cases l with
    | nil => simp [fgets]
    | cons c l =>
      have hc : c ≠ '\n' := fun h => hl (h ▸ mem_cons_self)
      have hrest := ih (fun h => hl (mem_cons_of_mem c h)) (Nat.lt_of_succ_lt_succ hn)
      rw [cons_append, fgets, if_neg hc, hrest]
      rfl

theorem fgets_left {n : ℕ} {file : Str} (hn : 0 < n) (hf : file ≠ []) :
    (fgets n file).2.length < file.length := by
  obtain ⟨n, rfl⟩ := Nat.exists_eq_succ_of_ne_zero hn.ne'
  obtain ⟨c, file, rfl⟩ := exists_cons_of_ne_nil hf
  rw [Nat.succ_eq_add_one, fgets]
  split
  · simp
  · have happ := congrArg List.length (fgets_append n file)
    simp only [length_append] at happ
    simp only [length_cons]
    omega

theorem cstr_eq {s : Str} (h : '\x00' ∉ s) : cstr s = s :=
  takeWhile_eq_self_iff.mpr fun c hc => by
    simpa using fun (heq : c = '\x00') => h (heq ▸ hc)

theorem null_notMem_cstr (s : Str) : '\x00' ∉ cstr s := fun h => by
  simpa using mem_takeWhile_imp h

/-! ## Numbers -/

def numeric (c : Char) : Bool := '0' ≤ c && c ≤ '9'

def satoiLoop : ℕ → Str → ℕ × Str
  | sum, [] => (sum, [])
  | sum, c :: p => if numeric c then satoiLoop (10 * sum + (c.toNat - '0'.toNat)) p else (sum, c :: p)

/-- `satoi(p, ip)`: the number, and what comes behind it. -/
def satoi (p : Str) : ℕ × Str := satoiLoop 0 p

/-- `sprintf("%u")`. -/
def sprintf_u (n : ℕ) : Str := Nat.toDigits 10 n

theorem numeric_iff {c : Char} : numeric c = true ↔ c.isDigit = true := by
  unfold numeric Char.isDigit
  simp only [Bool.and_eq_true, decide_eq_true_eq]
  exact Iff.rfl

theorem satoiLoop_append {ds rest : Str} (hd : ∀ c ∈ ds, c.isDigit = true)
    (hr : ∀ c ∈ rest.head?, numeric c = false) (sum : ℕ) :
    satoiLoop sum (ds ++ rest) = (Nat.ofDigitChars 10 ds sum, rest) := by
  induction ds generalizing sum with
  | nil =>
    cases rest with
    | nil => rfl
    | cons c rest =>
      rw [nil_append, satoiLoop, hr c rfl]
      rfl
  | cons d ds ih =>
    obtain ⟨hd0, hds⟩ := forall_mem_cons.mp hd
    rw [cons_append, satoiLoop, if_pos (numeric_iff.mpr hd0), ih hds, Nat.ofDigitChars_cons]

/-- A number that was written with zeros in front is read again. -/
theorem satoi_leftpad (k n : ℕ) {rest : Str} (hr : ∀ c ∈ rest.head?, numeric c = false) :
    satoi ((sprintf_u n).leftpad k '0' ++ rest) = (n, rest) := by
  have hd : ∀ c ∈ (sprintf_u n).leftpad k '0', c.isDigit = true := by
    intro c hc
    rcases mem_append.mp hc with hc | hc
    · rw [eq_of_mem_replicate hc]
      rfl
    · exact Nat.isDigit_of_mem_toDigits (by omega) (by omega) hc
  unfold satoi
  rw [satoiLoop_append hd hr, List.leftpad, Nat.ofDigitChars_append, Nat.ofDigitChars_replicate_zero]
  simp [sprintf_u]

end Cmd.Sccs
