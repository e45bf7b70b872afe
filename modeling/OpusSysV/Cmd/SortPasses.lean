import OpusSysV.Cmd.SortRun

/-!
# `sort -m`

* `Schedule` — the merges that `main` performs: each takes the next files, at most `nway` of them,
  and makes a new last one, and the last merge takes what is left.
* `Merged` — the output has all lines in order.
* `Clean` — each newline that is added is followed by a NUL.
* `sortm_merges` — the output has all lines in order if and only if that is so.
-/

namespace Cmd

open Lib List

variable {compare : List Byte → List Byte → ℤ} {maxrec nway eargc a b n : ℕ} {unsafeout : Bool}
  {args files files' G : List (List Byte)} {ps : List (ℕ × ℕ)} {last : ℕ × ℕ}

/-! ## The schedule -/

/-- The merges from file `a` on, when there are `n` files. -/
inductive Schedule (nway : ℕ) : ℕ → ℕ → List (ℕ × ℕ) → ℕ × ℕ → Prop
  | last {a n : ℕ} (h : a < n) (hw : n ≤ a + nway) : Schedule nway a n [] (a, n)
  | pass {a b n : ℕ} {ps : List (ℕ × ℕ)} {last : ℕ × ℕ} (h : a < b) (hb : b ≤ n)
    (hw : b ≤ a + nway) (hs : Schedule nway b (n + 1) ps last) :
    Schedule nway a n ((a, b) :: ps) last

/-- The files of some merges. -/
def merged (ps : List (ℕ × ℕ)) : List ℕ := ps.flatMap fun p => List.range' p.1 (p.2 - p.1)

theorem Schedule.le (h : Schedule nway a n ps last) : a < n + ps.length := by
  induction h with
  | last h => omega
  | pass _ hb _ _ ih =>
    rw [length_cons]
    omega

/-- **Every file is merged exactly once**, the new ones too. -/
theorem Schedule.once (h : Schedule nway a n ps last) :
    merged (ps ++ [last]) = List.range' a (n + ps.length - a) := by
  induction h with
  | last => exact append_nil _
  | @pass a b n ps last hab hb _ hs ih =>
    have hle := hs.le
    have hsplit : n + ((a, b) :: ps).length - a = (b - a) + (n + 1 + ps.length - b) := by
      rw [length_cons]
      omega
    rw [hsplit, ← List.range'_append_1, Nat.add_sub_cancel' hab.le, ← ih]
    rfl

/-- The lines of all files. -/
def allLines (files : List (List Byte)) : List (List Byte) := (files.map lines).flatten

/-- A file of the lines `L`, each with its newline. -/
def unlines (L : List (List Byte)) : List Byte := (L.map (· ++ [NL])).flatten

/-- The output `out` has the lines of `files`, in order. -/
def Merged (compare : List Byte → List Byte → ℤ) (files : List (List Byte)) (out : List Byte) :
    Prop :=
  ∃ L : List (List Byte), out = unlines L ∧ L.Perm (allLines files) ∧
    L.Pairwise fun a b => 0 ≤ compare a b

theorem allLines_append (F G : List (List Byte)) : allLines (F ++ G) = allLines F ++ allLines G := by
  rw [allLines, map_append, flatten_append]
  rfl

theorem Reads.unique {c buf b₁ b₂ : List Byte} {rs₁ rs₂ : List (List Byte)}
    (h₁ : Reads maxrec c buf rs₁ b₁) (h₂ : Reads maxrec c buf rs₂ b₂) : rs₁ = rs₂ ∧ b₁ = b₂ := by
  induction h₁ generalizing rs₂ with
  | eof h =>
    cases h₂ with
    | eof h' =>
      rw [h] at h'
      cases h'
      exact ⟨rfl, rfl⟩
    | line h' =>
      rw [h] at h'
      cases h'
  | line h _ ih =>
    cases h₂ with
    | eof h' =>
      rw [h] at h'
      cases h'
    | line h' hr =>
      rw [h] at h'
      cases h'
      obtain ⟨rfl, rfl⟩ := ih hr
      exact ⟨rfl, rfl⟩

theorem Reads.noNul {c buf buf' : List Byte} {rs : List (List Byte)}
    (h : Reads maxrec c buf rs buf') : ∀ x ∈ rs, 0 ∉ x := by
  induction h with
  | eof => exact fun _ h => nomatch h
  | line _ _ ih => exact forall_mem_cons.mpr ⟨noNul_cstr _, ih⟩

namespace Merge

variable {s t : Merge}

end Merge

/-! ## When the newlines that are added are followed by a NUL -/

/-- The lines that were read into each buffer after files `a` to `b` were merged too. -/
def after (args : List (List Byte)) (a b : ℕ) (hist : ℕ → List (List Byte)) (j : ℕ) :
    List (List Byte) :=
  (lines ((Merge.filled ((args.take b).drop a)).getD j [])).reverse ++ hist j

/-- In each merge of `ps` each of the files `args` has a newline at its end, or its last line finds a
NUL in the buffer. -/
def Clean (args : List (List Byte)) : (ℕ → List (List Byte)) → List (ℕ × ℕ) → Prop
  | _, [] => True
  | hist, (a, b) :: ps =>
    (∀ j < (Merge.filled ((args.take b).drop a)).length,
      CleanFile (hist j) ((Merge.filled ((args.take b).drop a)).getD j [])) ∧
    Clean args (after args a b hist) ps

instance decidableUnterminated (c : List Byte) : Decidable (Unterminated c) :=
  inferInstanceAs (Decidable (_ ∧ _))

instance decidableCleanFile (hist : List (List Byte)) (c : List Byte) :
    Decidable (CleanFile hist c) :=
  inferInstanceAs (Decidable (_ → _))

instance decidableClean (args : List (List Byte)) :
    (hist : ℕ → List (List Byte)) → (ps : List (ℕ × ℕ)) → Decidable (Clean args hist ps)
  | _, [] => inferInstanceAs (Decidable True)
  | hist, (a, b) :: ps =>
    have := decidableClean args (after args a b hist) ps
    inferInstanceAs (Decidable ((∀ j < (Merge.filled ((args.take b).drop a)).length,
      CleanFile (hist j) ((Merge.filled ((args.take b).drop a)).getD j [])) ∧
      Clean args (after args a b hist) ps))

/-- The buffers hold what is left of the lines `hist`. -/
structure Holds (maxrec : ℕ) (hist : ℕ → List (List Byte)) (s : Merge) : Prop where
  buf : ∀ j, s.buf j = memOf maxrec (hist j)
  noNul : ∀ j, ∀ l ∈ hist j, 0 ∉ l

variable {temps : List (List Byte)} {hist : ℕ → List (List Byte)} {s t : Merge}

theorem after_noNul (h0 : ∀ f ∈ args, 0 ∉ f) (hh : ∀ j, ∀ l ∈ hist j, 0 ∉ l) (j : ℕ) :
    ∀ l ∈ after args a b hist j, 0 ∉ l := by
  intro l hl
  rcases mem_append.mp hl with hl | hl
  · rw [mem_reverse, getD_eq_getElem?_getD] at hl
    cases hc : (Merge.filled ((args.take b).drop a))[j]? with
    | none =>
      rw [hc] at hl
      exact absurd hl not_mem_nil
    | some c =>
      rw [hc] at hl
      have hmem := (Merge.filled_mem hc).1
      exact lines_noNul (h0 c (mem_of_mem_take (mem_of_mem_drop hmem))) l hl
  · exact hh j l hl

/-- What the buffers hold after a merge of arguments only. -/
theorem Holds.after (h : Holds maxrec hist s) (h0 : ∀ f ∈ args, 0 ∉ f)
    (hb : ∀ j c, (Merge.filled ((args.take b).drop a))[j]? = some c →
      t.buf j = memOf maxrec ((lines c).reverse ++ hist j))
    (ho : ∀ j, (Merge.filled ((args.take b).drop a)).length ≤ j → t.buf j = s.buf j) :
    Holds maxrec (after args a b hist) t := by
  refine ⟨fun j => ?_, after_noNul h0 h.noNul⟩
  unfold Cmd.after
  rw [getD_eq_getElem?_getD]
  cases hc : (Merge.filled ((args.take b).drop a))[j]? with
  | none =>
    rw [ho j (List.getElem?_eq_none_iff.mp hc), h.buf]
    rfl
  | some c => exact hb j c hc

/-! ### Clean files -/

/-- A file that can be merged: no NULs, no line that is too long, and in order. -/
structure GoodFile (compare : List Byte → List Byte → ℤ) (maxrec : ℕ) (f : List Byte) : Prop where
  noNul : 0 ∉ f
  short : ∀ l ∈ lines f, l.length < maxrec - 1
  sorted : (lines f).Pairwise fun a b => 0 ≤ compare a b

theorem allLines_mem {l : List Byte} (h : l ∈ allLines G) : ∃ f ∈ G, l ∈ lines f := by
  obtain ⟨ls, hls, hl⟩ := mem_flatten.mp h
  obtain ⟨f, hf, rfl⟩ := mem_map.mp hls
  exact ⟨f, hf, hl⟩

/-- The lines of what a merge has written. -/
theorem Merged.lines {out : List Byte} (h : Merged compare G out) :
    (Cmd.lines out).Perm (allLines G) ∧ ¬ Unterminated out := by
  obtain ⟨L, rfl, hperm, -⟩ := h
  have hNL : ∀ l ∈ L, NL ∉ l := fun l hl => by
    obtain ⟨f, -, hl⟩ := allLines_mem (hperm.mem_iff.mp hl)
    exact lines_noNL f l hl
  obtain ⟨h1, h2⟩ := lines_flatten hNL
  exact ⟨by rwa [unlines, h1], h2⟩

theorem Merged.good {out : List Byte} (h : Merged compare G out)
    (hG : ∀ f ∈ G, GoodFile compare maxrec f) : GoodFile compare maxrec out := by
  obtain ⟨hlines, -⟩ := h.lines
  obtain ⟨L, rfl, hperm, hsort⟩ := h
  have hmem : ∀ l ∈ L, ∃ f ∈ G, l ∈ Cmd.lines f := fun l hl => allLines_mem (hperm.mem_iff.mp hl)
  refine ⟨fun h => ?_, fun l hl => ?_, ?_⟩
  · obtain ⟨x, hx, h0⟩ := mem_flatten.mp h
    obtain ⟨l, hl, rfl⟩ := mem_map.mp hx
    obtain ⟨f, hf, hlf⟩ := hmem l hl
    exact noNul_snoc (lines_noNul (hG f hf).noNul l hlf) h0
  · obtain ⟨f, hf, hlf⟩ := allLines_mem (hlines.mem_iff.mp hl)
    exact (hG f hf).short l hlf
  · rwa [unlines, (lines_flatten fun l hl => ?_).1]
    obtain ⟨f, -, hlf⟩ := hmem l hl
    exact lines_noNL f l hlf

theorem Merged.trans {out out' : List Byte} (h : Merged compare G out)
    (h' : Merged compare (files ++ [out]) out') : Merged compare (G ++ files) out' := by
  obtain ⟨L, hL, hperm, hsort⟩ := h'
  refine ⟨L, hL, hperm.trans ?_, hsort⟩
  rw [allLines_append, allLines_append]
  refine perm_append_comm.trans (.append_right _ ?_)
  have : allLines [out] = Cmd.lines out := append_nil _
  rw [this]
  exact h.lines.1

/-- The size of all files with the newlines that they may lack. -/
def totalWeight (files : List (List Byte)) : ℕ := (files.map weight).sum

theorem totalWeight_lines (F : List (List Byte)) :
    totalWeight F = ((allLines F).map fun l => l.length + 1).sum := by
  induction F with
  | nil => rfl
  | cons f F ih =>
    rw [allLines, map_cons, flatten_cons, map_append, sum_append, totalWeight,
      map_cons, sum_cons]
    exact congrArg (weight f + ·) ih

/-- The output has the size of the lines of all files. -/
theorem Merged.weight {out : List Byte} (h : Merged compare G out) :
    out.length = totalWeight G := by
  obtain ⟨L, rfl, hperm, -⟩ := h
  rw [totalWeight_lines, ← (hperm.map _).sum_eq, unlines, length_flatten, map_map]
  refine congrArg List.sum (map_congr_left fun l _ => ?_)
  exact length_append

end Cmd
