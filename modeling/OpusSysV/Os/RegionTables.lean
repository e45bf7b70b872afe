import Mathlib.Data.List.Nodup
import OpusSysV.Os.RegionLoops

/-!
# The page tables match the size of a region

* `Mapped` — the list of a region has a table pair for each of its segments, these are the ones that
  are allocated, and a stack ends at the end of a segment.
* `MapsTo` — the entry of a page, by its address.
* `growreg_spec` — what one call that meets `Meets` does.
* `region_tables` — what holds after any such calls of `growreg` on a region that was empty, and of
  the next one.
-/

namespace Os

open Lib List Option

variable {s t : Vm} {l ts tabs : List ℕ} {lsz n o change : ℤ} {zeros : Prop} {m : Ptmem}

/-! ## The list -/

theorem ctos_zero : ctos 0 = 0 := by decide

theorem btorl_ctos (h0 : 0 < n) (h1 : n ≤ 32767) : btorl (ctos n * 4) = 1 := by
  unfold btorl ctos
  omega

theorem Tables.ent {ent : ℕ → ℤ → Pgent} (h : Tables l lsz zeros m ts) :
    Tables l lsz zeros { m with ent := ent } ts :=
  ⟨h.split, h.length, h.ne, h.nodup, h.pairs, h.good⟩

theorem Tables.length_le (h : Tables l lsz zeros m ts) : ts.length ≤ l.length := by
  obtain ⟨rest, rfl, -⟩ := h.split
  rw [length_append]
  omega

/-- The list of a region that shrank. -/
theorem shrinkList_spec (list : Bool) (h : Tables s.reg.r_list s.reg.r_listsz zeros s.mem ts)
    (hlen : (ts.length : ℤ) = ctos n) (h0 : 0 ≤ n) (h1 : n ≤ 32767)
    (hsz : s.reg.r_listsz = 0 ∨ s.reg.r_listsz = 1) :
    ∃ l lsz, s.shrinkList n list = { s with reg := { s.reg with r_list := l, r_listsz := lsz } } ∧
      Tables l lsz zeros s.mem ts ∧ (lsz = 0 ∨ lsz = 1) := by
  unfold Vm.shrinkList
  dsimp only
  by_cases hn : 0 < n
  · rw [btorl_ctos hn h1, if_neg (by omega)]
    exact ⟨_, _, rfl, h, hsz⟩
  · have hn0 : n = 0 := by omega
    subst hn0
    by_cases hi : btorl (ctos 0 * 4) < s.reg.r_listsz
    · rw [if_pos hi, if_neg hn]
      have hts : ts = [] := by
        rw [← length_eq_zero_iff]
        have : ctos 0 = 0 := ctos_zero
        omega
      subst hts
      exact ⟨[], 0, rfl, ⟨⟨[], rfl, fun _ _ h => nomatch h⟩, rfl, h.ne, h.nodup, h.pairs, h.good⟩,
        Or.inl rfl⟩
    · rw [if_neg hi]
      exact ⟨_, _, rfl, h, hsz⟩

/-- The list of a region that is to grow. -/
theorem growList_spec (list : Bool) (h : Tables s.reg.r_list s.reg.r_listsz zeros s.mem ts)
    (h0 : 0 < n) (h1 : n ≤ 32767) (hsz : s.reg.r_listsz = 0 ∨ s.reg.r_listsz = 1) :
    s.growList o n list = none ∨
    ∃ l, s.growList o n list = some { s with reg := { s.reg with r_list := l, r_listsz := 1 } } ∧
      Tables l 1 zeros s.mem ts := by
  unfold Vm.growList
  dsimp only
  rw [btorl_ctos h0 h1]
  rcases hsz with hsz | hsz
  · have hl : s.reg.r_list = [] := by
      have hlen := h.length
      rw [hsz] at hlen
      unfold wordsPerRl at hlen
      exact length_eq_zero_iff.mp (by omega)
    have hts : ts = [] := by
      have hle := h.length_le
      rw [hl] at hle
      exact length_eq_zero_iff.mp (Nat.le_zero.mp hle)
    rw [if_pos (by omega)]
    cases list with
    | false => exact Or.inl rfl
    | true =>
      right
      refine ⟨List.replicate 256 0, ?_,
        ⟨List.replicate 256 0, ?_, fun _ t ht => eq_of_mem_replicate ht⟩, ?_,
        h.ne, h.nodup, h.pairs, h.good⟩
      · rw [if_pos rfl, hl]
        unfold newList
        rw [take_nil]
        rfl
      · rw [hts, nil_append]
      · rw [length_replicate]
        rfl
  · right
    rw [if_neg (by omega), ← hsz]
    exact ⟨_, rfl, h⟩

/-! ## Entries -/

/-- The entry of a page, counted from the beginning of the list. -/
def Vm.pageEnt (s : Vm) (p : ℤ) : Option Pgent :=
  (s.reg.r_list[(p / 1024).toNat]?).map fun t => s.mem.ent t (p % 1024)

theorem Tables.getElem?_eq (h : Tables l lsz zeros m ts) {q : ℕ} (hq : q < ts.length) :
    l[q]? = ts[q]? := by
  obtain ⟨rest, rfl, -⟩ := h.split
  rw [List.getElem?_append_left hq]

/-- The entries of a range of pages are changed, those of other pages are not. -/
theorem onPages_spec (start endp : ℤ) (f : ℤ → Pgent → Pgent)
    (h : Tables s.reg.r_list s.reg.r_listsz zeros s.mem ts) (h0 : 0 ≤ start)
    (h2 : endp ≤ 1024 * ts.length) :
    ∃ ent, s.onPages start endp f = some { s with mem := { s.mem with ent := ent } } ∧
      ∀ (q t : ℕ) (j : ℤ), ts[q]? = some t → 0 ≤ j → j < 1024 →
        ¬ (start ≤ q * 1024 + j ∧ q * 1024 + j < endp) → ent t j = s.mem.ent t j := by
  unfold Vm.onPages
  have hidx : ∀ i : ℤ, ctost start ≤ i → i < ctost start + (ctos endp - ctost start).toNat →
      0 ≤ i ∧ i.toNat < ts.length := by
    intro i hi1 hi2
    unfold ctost at hi1
    unfold ctost ctos at hi2
    omega
  obtain ⟨ent, he, hent⟩ := eachPage_spec (l := s.reg.r_list) (a := ctost start)
    (k := (ctos endp - ctost start).toNat) start endp f s.mem.ent
    fun i hi1 hi2 => by
      have hi := (hidx i hi1 hi2).2
      rw [h.getElem?_eq hi]
      exact ⟨ts[i.toNat], h.ne _ (getElem_mem hi), List.getElem?_eq_getElem hi⟩
  refine ⟨ent, by rw [he]; rfl, fun q t j hq hj0 hj1 hout => hent t j fun i hi1 hi2 hli _ _ => ?_⟩
  have hi := hidx i hi1 hi2
  rw [h.getElem?_eq hi.2] at hli
  have hqi : q = i.toNat := by
    refine (List.getElem?_inj ?_ h.nodup).mp (hq.trans hli.symm)
    exact (List.getElem?_eq_some_iff.mp hq).1
  rw [hqi, Int.toNat_of_nonneg hi.1] at hout
  exact hout

/-! ## The tables of a region that shrinks or grows -/

theorem shrinkTables_up (h : Tables s.reg.r_list s.reg.r_listsz zeros s.mem ts)
    (hlen : (ts.length : ℤ) = ctos o) (h0 : 0 ≤ ctos n) (h1 : ctos n ≤ ctos o) :
    ∃ l m, s.shrinkTables o n true = some { s with reg := { s.reg with r_list := l }, mem := m } ∧
      Tables l s.reg.r_listsz zeros m (ts.take (ctos n).toNat) ∧ m.ent = s.mem.ent := by
  obtain ⟨rest, hl, hz⟩ := h.split
  obtain ⟨k, hk⟩ : ∃ k, k = (ctos n).toNat := ⟨_, rfl⟩
  have hkl : k ≤ ts.length := by omega
  have hA : (ts.take k).length = k := length_take_of_le hkl
  have hB : (ts.drop k).length = (ctos o - ctos n).toNat := by
    rw [length_drop]
    omega
  have hsplit : ts.take k ++ ts.drop k = ts := take_append_drop k ts
  have hp : s.mem.pairs.Perm (ts.drop k ++ ts.take k) :=
    by
    refine h.pairs.trans ((List.Perm.of_eq hsplit.symm).trans perm_append_comm)
  obtain ⟨hpairs, hgood, hent⟩ := Ptmem.free_foldl hp
  have hloop := freeTables_eq (A := ts.take k) (B := ts.drop k) (C := rest) (m := s.mem)
  rw [hA, hB, hsplit, ← hl] at hloop
  unfold Vm.shrinkTables
  rw [if_pos rfl, ← hk, hloop, map_some]
  refine ⟨_, _, rfl, ⟨⟨List.replicate (ctos o - ctos n).toNat 0 ++ rest, ?_, fun hzz t ht => ?_⟩,
    ?_, fun t ht => h.ne t (mem_of_mem_take ht), h.nodup.sublist (take_sublist k ts),
    hpairs, hgood.trans h.good⟩, hent⟩
  · rw [append_assoc]
  · rcases mem_append.mp ht with ht | ht
    · exact eq_of_mem_replicate ht
    · exact hz hzz t ht
  · rw [← h.length, hl]
    simp only [length_append, length_replicate, hA]
    omega

theorem shrinkTables_down (h : Tables s.reg.r_list s.reg.r_listsz zeros s.mem ts) (hz : zeros)
    (hlen : (ts.length : ℤ) = ctos o) (h0 : 0 ≤ ctos n) (h1 : ctos n < ctos o)
    (h2 : 2 * ctos n ≤ ctos o) (hroom : ts.length < s.reg.r_list.length) :
    ∃ l m, s.shrinkTables o n false = some {
        prp := { s.prp with p_regva := caddr (s.prp.p_regva + stob (ctos o - ctos n)) }
        reg := { s.reg with
          r_list := l
          r_pgoff := short (s.reg.r_pgoff - stoc (ctos o - ctos n)) }
        mem := m } ∧
      Tables l s.reg.r_listsz zeros m (ts.drop (ctos o - ctos n).toNat) ∧
      m.ent = s.mem.ent := by
  obtain ⟨rest, hl, hzero⟩ := h.split
  have hzero := hzero hz
  obtain ⟨k, hk⟩ : ∃ k, k = (ctos n).toNat := ⟨_, rfl⟩
  obtain ⟨d, hd⟩ : ∃ d, d = (ctos o - ctos n).toNat := ⟨_, rfl⟩
  obtain ⟨A, hA⟩ : ∃ A, A = ts.take k := ⟨_, rfl⟩
  obtain ⟨B, hB⟩ : ∃ B, B = (ts.drop k).take (d - k) := ⟨_, rfl⟩
  obtain ⟨C, hC⟩ : ∃ C, C = ts.drop d := ⟨_, rfl⟩
  have hAl : A.length = k := by rw [hA, length_take]; omega
  have hBl : B.length = d - k := by rw [hB, length_take, length_drop]; omega
  have hCl : C.length = k := by rw [hC, length_drop]; omega
  have hsplit : A ++ B ++ C = ts := by
    have hdrop : (ts.drop k).drop (d - k) = ts.drop d := by
      rw [drop_drop]
      congr 1
      omega
    rw [hA, hB, hC, append_assoc, ← hdrop, take_append_drop, take_append_drop]
  have hpairs : s.mem.pairs.Perm (A ++ (B ++ C)) := by
    rw [← append_assoc, hsplit]
    exact h.pairs
  obtain ⟨hp1, hg1, he1⟩ := Ptmem.free_foldl hpairs
  obtain ⟨hp2, hg2, he2⟩ := Ptmem.free_foldl hp1
  have hslide := slideDown_eq (P := []) (M := B) (R := rest) (m := s.mem) hAl hCl
  rw [nil_append, nil_append, hsplit, ← hl, length_nil, Nat.zero_add, hAl, hBl,
    show k + (d - k) = d by omega] at hslide
  have hne : ∀ b ∈ B, b ≠ 0 := fun b hb => h.ne b (by
    rw [← hsplit]
    exact mem_append_left C (mem_append_right A hb))
  -- a null word ends the second loop
  obtain ⟨R, hR, hRz⟩ : ∃ R, List.replicate k 0 ++ rest = 0 :: R ∧ ∀ t ∈ R, t = 0 := by
    cases k with
    | zero =>
      cases rest with
      | nil =>
        rw [hl, append_nil] at hroom
        omega
      | cons r R =>
        refine ⟨R, ?_, fun t ht => hzero t (mem_cons_of_mem r ht)⟩
        rw [hzero r mem_cons_self]
        rfl
    | succ k =>
      refine ⟨List.replicate k 0 ++ rest, rfl, fun t ht => ?_⟩
      rcases mem_append.mp ht with ht | ht
      · exact eq_of_mem_replicate ht
      · exact hzero t ht
  have hlist : C ++ B ++ List.replicate k 0 ++ rest = C ++ B ++ 0 :: R := by
    rw [append_assoc, hR]
  have hlong : B.length < (C ++ B ++ List.replicate k 0 ++ rest).length + 1 := by
    simp only [length_append]
    omega
  have hrest := freeRest_eq (P := C) (R := R) (m := A.foldl Ptmem.smpgfree s.mem) hne hlong
  rw [← hlist, hCl] at hrest
  unfold Vm.shrinkTables
  rw [if_neg Bool.false_ne_true]
  dsimp only
  rw [← hd, show (ctos o - (ctos o - ctos n)).toNat = k by omega, hslide, bind_some]
  dsimp only
  rw [hrest, map_some]
  refine ⟨_, _, rfl, ⟨⟨List.replicate B.length 0 ++ 0 :: R, ?_, fun _ t ht => ?_⟩, ?_,
    fun t ht => h.ne t (mem_of_mem_drop ht), h.nodup.sublist (drop_sublist d ts), ?_,
    (hg2.trans hg1).trans h.good⟩, he2.trans he1⟩
  · rw [← hC, append_assoc]
  · rcases mem_append.mp ht with ht | ht
    · exact eq_of_mem_replicate ht
    · rcases mem_cons.mp ht with rfl | ht
      · rfl
      · exact hRz t ht
  · have hRl := congrArg List.length hR
    simp only [length_append, length_replicate, length_cons] at hRl
    rw [← h.length, hl]
    simp only [length_append, length_replicate, length_cons]
    omega
  · rw [← hC]
    exact hp2

/-- What the allocator returns is new and not null. -/
def FreshTabs (m : Ptmem) (tabs : List ℕ) : Prop := tabs.Nodup ∧ ∀ t ∈ tabs, t ≠ 0 ∧ t ∉ m.pairs

theorem growTables_up (h : Tables s.reg.r_list s.reg.r_listsz False s.mem ts)
    (hlen : (ts.length : ℤ) = ctos o) (h1 : ctos o ≤ ctos n)
    (hroom : ctos n ≤ s.reg.r_list.length) (hsz : s.reg.r_pgsz = 0 → ctost o = ctos o)
    (hfresh : FreshTabs s.mem tabs) :
    ∃ ok l m, s.growTables o n true tabs =
        some (ok, { s with reg := { s.reg with r_list := l }, mem := m }) ∧
      (∀ t, t ∉ tabs → m.ent t = s.mem.ent t) ∧
      if ok then ∃ X, Tables l s.reg.r_listsz False m (ts ++ X) ∧
        ((ts ++ X).length : ℤ) = ctos n else Tables l s.reg.r_listsz False m ts := by
  obtain ⟨rest, hl, -⟩ := h.split
  obtain ⟨k, hk⟩ : ∃ k, k = (ctos n - ctos o).toNat := ⟨_, rfl⟩
  have hlp : (if s.reg.r_pgsz ≠ 0 then ctos o else ctost o) = ctos o := by
    split_ifs with hz
    · rfl
    · exact hsz (not_not.mp hz)
  have hkr : k ≤ rest.length := by
    rw [hl, length_append] at hroom
    push_cast at hroom
    omega
  have hX : (rest.take k).length = k := length_take_of_le hkr
  have hsplit : ts ++ rest.take k ++ rest.drop k = s.reg.r_list := by
    rw [append_assoc, take_append_drop, hl]
  have ho : (ctos o).toNat = ts.length := by omega
  unfold Vm.growTables
  rw [if_pos rfl]
  dsimp only
  rw [hlp, ho, ← hk]
  by_cases htabs : k ≤ tabs.length
  · have hloop := allocTables_eq (P := ts) (X := rest.take k) (Q := rest.drop k) (m := s.mem)
      ts.length (hX ▸ htabs)
    obtain ⟨hp, hg, he⟩ := Ptmem.alloc_foldl (m := s.mem) (B := tabs.take k)
    rw [hX, hsplit] at hloop
    rw [hloop, map_some]
    have hT : (tabs.take k).length = k := length_take_of_le htabs
    refine ⟨true, _, _, rfl, fun t ht => he t fun hm => ht (mem_of_mem_take hm), ?_⟩
    rw [if_pos rfl]
    refine ⟨tabs.take k, ⟨⟨rest.drop k, rfl, False.elim⟩, ?_, fun t ht => ?_, ?_, ?_,
      hg.trans h.good⟩, ?_⟩
    · rw [← h.length, ← hsplit]
      simp only [length_append, hT, hX]
    · rcases mem_append.mp ht with ht | ht
      · exact h.ne t ht
      · exact (hfresh.2 t (mem_of_mem_take ht)).1
    · refine nodup_append.mpr ⟨h.nodup, hfresh.1.sublist (take_sublist k tabs),
        fun a ha b hb he => ?_⟩
      subst he
      exact (hfresh.2 a (mem_of_mem_take hb)).2 (h.pairs.mem_iff.mpr ha)
    · exact (hp.trans (h.pairs.append_left _)).trans perm_append_comm
    · rw [length_append, hT]
      push_cast
      omega
  · have hloop := allocTables_fail (P := ts) (T := []) (X := rest.take k) (Q := rest.drop k)
      (m := s.mem) (show tabs.length < _ by rw [hX]; omega)
    rw [append_nil, hX, hsplit, nil_append] at hloop
    obtain ⟨X', hX', hloop⟩ := hloop
    obtain ⟨hp, hg, he⟩ := Ptmem.alloc_foldl (m := s.mem) (B := tabs)
    have hp' : (tabs.foldl Ptmem.smpgalloc s.mem).pairs.Perm (tabs.reverse ++ s.mem.pairs) :=
      hp.trans (tabs.reverse_perm.symm.append_right _)
    obtain ⟨hp2, hg2, he2⟩ := Ptmem.free_foldl hp'
    rw [hloop, map_some]
    refine ⟨false, _, _, rfl, fun t ht => ?_, ?_⟩
    · rw [he2]
      exact he t ht
    · rw [if_neg Bool.false_ne_true]
      refine ⟨⟨X' ++ rest.drop k, by rw [append_assoc], False.elim⟩, ?_, h.ne, h.nodup,
        hp2.trans h.pairs, (hg2.trans hg).trans h.good⟩
      rw [← h.length, ← hsplit]
      simp only [length_append, hX', hX]

theorem growTables_down (h : Tables s.reg.r_list s.reg.r_listsz zeros s.mem ts) (hz : zeros)
    (hlen : (ts.length : ℤ) = ctos o) (h1 : ctos o ≤ ctos n)
    (hroom : ctos n ≤ s.reg.r_list.length) (hfresh : FreshTabs s.mem tabs)
    (htabs : ctos n - ctos o ≤ tabs.length) :
    ∃ l m X, s.growTables o n false tabs = some (true, {
        prp := { s.prp with p_regva := caddr (s.prp.p_regva - stob (ctos n - ctos o)) }
        reg := { s.reg with
          r_list := l
          r_pgoff := short (s.reg.r_pgoff + stoc (ctos n - ctos o)) }
        mem := m }) ∧
      (∀ t, t ∉ tabs → m.ent t = s.mem.ent t) ∧ (X.length : ℤ) = ctos n - ctos o ∧
      Tables l s.reg.r_listsz zeros m (X ++ ts) := by
  obtain ⟨rest, hl, hzero⟩ := h.split
  have hzero := hzero hz
  obtain ⟨d, hd⟩ : ∃ d, d = (ctos n - ctos o).toNat := ⟨_, rfl⟩
  have hdr : d ≤ rest.length := by
    rw [hl, length_append] at hroom
    push_cast at hroom
    omega
  obtain ⟨X, hX, hshift⟩ := slideUp_eq (A := ts) hdr
  have hloop := allocTables_eq (P := []) (X := X) (Q := ts ++ rest.drop d) (m := s.mem) 0
    (show X.length ≤ tabs.length by omega)
  rw [nil_append, nil_append, length_nil, hX, ← append_assoc] at hloop
  obtain ⟨hp, hg, he⟩ := Ptmem.alloc_foldl (m := s.mem) (B := tabs.take d)
  have hT : (tabs.take d).length = d := length_take_of_le (by omega)
  unfold Vm.growTables
  rw [if_neg Bool.false_ne_true]
  dsimp only
  rw [← hd, show (ctos o).toNat = ts.length by omega, hl, hshift, bind_some, hloop,
    map_some]
  refine ⟨_, _, tabs.take d, rfl, fun t ht => he t fun hm => ht (mem_of_mem_take hm), ?_,
    ⟨⟨rest.drop d, ?_, fun _ t ht => hzero t (mem_of_mem_drop ht)⟩, ?_, fun t ht => ?_, ?_, ?_,
      hg.trans h.good⟩⟩
  · rw [hT]
    omega
  · rw [append_assoc]
  · rw [← h.length, hl]
    simp only [length_append, hT, length_drop]
    omega
  · rcases mem_append.mp ht with ht | ht
    · exact (hfresh.2 t (mem_of_mem_take ht)).1
    · exact h.ne t ht
  · refine nodup_append.mpr ⟨hfresh.1.sublist (take_sublist d tabs), h.nodup,
      fun a ha b hb he => ?_⟩
    subst he
    exact (hfresh.2 a (mem_of_mem_take ha)).2 (h.pairs.mem_iff.mpr hb)
  · exact hp.trans (h.pairs.append_left _)

/-! ## A call -/

/-- The region has its tables. -/
structure Vm.Mapped (s : Vm) (ts : List ℕ) : Prop where
  regva : 0 ≤ s.prp.p_regva ∧ s.prp.p_regva < 2 ^ 32
  pgsz : 0 ≤ s.reg.r_pgsz ∧ s.reg.r_pgsz ≤ 32767
  stack : s.prp.p_type = .stack →
    0 ≤ s.reg.r_pgoff ∧ s.reg.r_pgoff < 1024 ∧ (s.reg.r_pgoff + s.reg.r_pgsz) % 1024 = 0
  other : s.prp.p_type ≠ .stack → s.reg.r_pgoff = 0
  length : (ts.length : ℤ) = ctos s.reg.r_pgsz
  listsz : s.reg.r_listsz = 0 ∨ s.reg.r_listsz = 1
  tables : Tables s.reg.r_list s.reg.r_listsz (s.prp.p_type = .stack) s.mem ts

/-- The page of a region at an address, and its entry. -/
def Vm.MapsTo (s : Vm) (vaddr : ℤ) (x : Pgent) : Prop :=
  ∃ p, s.reg.r_pgoff ≤ p ∧ p < s.reg.r_pgoff + s.reg.r_pgsz ∧
    vaddr = caddr (s.prp.p_regva + ctob p) ∧ s.pageEnt p = some x

/-- A page that is in the region before and after has the same entry at its address. -/
def Vm.Keeps (s t : Vm) : Prop :=
  ∀ vaddr x, s.MapsTo vaddr x → (∃ y, t.MapsTo vaddr y) → t.MapsTo vaddr x

/-- The checks before a region grows. -/
def Vm.Refused (s : Vm) (e : GrowEnv) (change : ℤ) (lotohi : Bool) : Prop :=
  (s.reg.r_type ≠ .phmem ∧ (e.availsmem - change < e.t_minasmem ∨
    (s.reg.r_noswapcnt ≠ 0 ∧ e.availrmem - change < e.t_minarmem))) ∨
  chkgrowth s.prp s.reg e.oprp change lotohi = true

/-- A bigger list is needed and there is no space for it. -/
def Vm.NoList (s : Vm) (e : GrowEnv) (change : ℤ) : Prop :=
  s.reg.r_listsz < btorl (ctos (s.reg.r_pgsz + change) * 4) ∧ e.list = false

/-- A call that is refused; or the size stays a `short`, a stack that gives up segments keeps at
most half of them, and the page tables for the new segments of a stack can be allocated if there is
space for the list. -/
def Vm.Meets (s : Vm) (e : GrowEnv) (change : ℤ) : Prop :=
  (0 < change ∧ s.Refused e change (decide (s.prp.p_type ≠ .stack))) ∨
  (s.reg.r_pgsz + change ≤ 32767 ∧
    (s.prp.p_type = .stack →
      (change < 0 → ctos (s.reg.r_pgsz + change) = ctos s.reg.r_pgsz ∨
        2 * ctos (s.reg.r_pgsz + change) ≤ ctos s.reg.r_pgsz) ∧
      (0 < change → s.NoList e change ∨
        ctos (s.reg.r_pgsz + change) - ctos s.reg.r_pgsz ≤ e.tabs.length)))

theorem caddr_range {x : ℤ} : 0 ≤ caddr x ∧ caddr x < 2 ^ 32 := by
  unfold caddr
  omega

/-- Pages are kept if entries only move with the addresses. -/
theorem keeps_of_shift (sh : ℤ) (hs : s.reg.r_pgsz ≤ 32767) (ht : t.reg.r_pgsz ≤ 32767)
    (hso : -65536 ≤ s.reg.r_pgoff ∧ s.reg.r_pgoff ≤ 65536)
    (hto : -65536 ≤ t.reg.r_pgoff ∧ t.reg.r_pgoff ≤ 65536) (hsh : -65536 ≤ sh ∧ sh ≤ 65536)
    (hva : caddr (t.prp.p_regva + ctob sh) = caddr s.prp.p_regva)
    (hent : ∀ p, s.reg.r_pgoff ≤ p → p < s.reg.r_pgoff + s.reg.r_pgsz →
      t.reg.r_pgoff ≤ p + sh → p + sh < t.reg.r_pgoff + t.reg.r_pgsz →
      t.pageEnt (p + sh) = s.pageEnt p) : s.Keeps t := by
  rintro vaddr x ⟨p, h1, h2, rfl, hx⟩ ⟨y, q, h3, h4, hq, -⟩
  have hqp : q = p + sh := by
    unfold caddr ctob at hva hq
    omega
  subst hqp
  exact ⟨p + sh, h3, h4, hq, (hent p h1 h2 h3 h4).trans hx⟩

theorem short_of {x : ℤ} (h : -32768 ≤ x ∧ x < 32768) : short x = x := short_eq h

/-- The entry of a page below the end of the tables. -/
theorem Tables.pageEnt_eq (h : Tables s.reg.r_list s.reg.r_listsz zeros s.mem ts) {p : ℤ}
    (hp : (p / 1024).toNat < ts.length) :
    s.pageEnt p = (ts[(p / 1024).toNat]?).map fun t => s.mem.ent t (p % 1024) := by
  unfold Vm.pageEnt
  rw [h.getElem?_eq hp]

/-- `ptexpand` when a region that grows upwards shrinks. -/
theorem ptexpand_shrink_up (list : Bool) (tabs : List ℕ)
    (h : Tables s.reg.r_list s.reg.r_listsz zeros s.mem ts)
    (hlen : (ts.length : ℤ) = ctos s.reg.r_pgsz) (hoff : s.reg.r_pgoff = 0)
    (hlsz : s.reg.r_listsz = 0 ∨ s.reg.r_listsz = 1) (h0 : change < 0)
    (h1 : 0 ≤ s.reg.r_pgsz + change) (h2 : s.reg.r_pgsz ≤ 32767) :
    ∃ l lsz m, s.ptexpand change true list tabs =
      some (true, { s with reg := { s.reg with r_list := l, r_listsz := lsz }, mem := m }) ∧
      Tables l lsz zeros m (ts.take (ctos (s.reg.r_pgsz + change)).toNat) ∧
      (lsz = 0 ∨ lsz = 1) ∧ m.ent = s.mem.ent := by
  have hcn : 0 ≤ ctos (s.reg.r_pgsz + change) ∧
      ctos (s.reg.r_pgsz + change) ≤ ctos s.reg.r_pgsz := by
    unfold ctos
    omega
  have hos : s.reg.r_pgoff + s.reg.r_pgsz = s.reg.r_pgsz := by rw [hoff, zero_add]
  unfold Vm.ptexpand
  rw [if_pos rfl]
  dsimp only
  rw [hos]
  by_cases hseg : ctos (s.reg.r_pgsz + change) < ctos s.reg.r_pgsz
  · obtain ⟨l, m, hst, ht1, hm⟩ := shrinkTables_up h hlen hcn.1 hcn.2
    obtain ⟨l', lsz, hsl, ht2, hlsz'⟩ := shrinkList_spec list
      (s := { s with reg := { s.reg with r_list := l }, mem := m }) ht1 (by
        rw [length_take]
        omega) h1 (by omega) hlsz
    refine ⟨l', lsz, m, ?_, ht2, hlsz', hm⟩
    rw [if_pos hseg, hst, map_some, hsl, bind_some, if_pos h0.le, if_pos rfl]
  · refine ⟨s.reg.r_list, s.reg.r_listsz, s.mem, ?_, ?_, hlsz, rfl⟩
    · rw [if_neg hseg, bind_some, if_pos h0.le, if_pos rfl]
    · rw [take_of_length_le (by omega)]
      exact h

/-- `ptexpand` when a stack shrinks. -/
theorem ptexpand_shrink_down (list : Bool) (tabs : List ℕ)
    (h : Tables s.reg.r_list s.reg.r_listsz zeros s.mem ts) (hz : zeros)
    (hlen : (ts.length : ℤ) = ctos s.reg.r_pgsz)
    (hlsz : s.reg.r_listsz = 0 ∨ s.reg.r_listsz = 1) (h0 : change < 0)
    (h1 : 0 ≤ s.reg.r_pgsz + change) (h2 : s.reg.r_pgsz ≤ 32767)
    (hoff : 0 ≤ s.reg.r_pgoff ∧ s.reg.r_pgoff < 1024) (hva : caddr s.prp.p_regva = s.prp.p_regva)
    (hhalf : ctos (s.reg.r_pgsz + change) = ctos s.reg.r_pgsz ∨
      2 * ctos (s.reg.r_pgsz + change) ≤ ctos s.reg.r_pgsz) {d : ℤ}
    (hd : d = ctos s.reg.r_pgsz - ctos (s.reg.r_pgsz + change)) :
    ∃ l lsz m, s.ptexpand change false list tabs = some (true, {
        prp := { s.prp with p_regva := caddr (s.prp.p_regva + stob d) }
        reg := { s.reg with
          r_list := l
          r_listsz := lsz
          r_pgoff := short (short (s.reg.r_pgoff - stoc d) - change) }
        mem := m }) ∧
      Tables l lsz zeros m (ts.drop d.toNat) ∧ (lsz = 0 ∨ lsz = 1) ∧ m.ent = s.mem.ent := by
  have hcn : 0 ≤ ctos (s.reg.r_pgsz + change) ∧
      ctos (s.reg.r_pgsz + change) ≤ ctos s.reg.r_pgsz ∧ ctos s.reg.r_pgsz ≤ 32 := by
    unfold ctos
    omega
  unfold Vm.ptexpand
  rw [if_neg Bool.false_ne_true]
  dsimp only
  by_cases hseg : ctos (s.reg.r_pgsz + change) < ctos s.reg.r_pgsz
  · have hroom : ts.length < s.reg.r_list.length := by
      have hll := h.length
      have hle := h.length_le
      unfold wordsPerRl at hll
      rcases hlsz with hlsz | hlsz <;> rw [hlsz] at hll <;> omega
    obtain ⟨l, m, hst, ht1, hm⟩ := shrinkTables_down h hz hlen hcn.1 hseg (by omega) hroom
    rw [← hd] at hst ht1
    obtain ⟨l', lsz, hsl, ht2, hlsz'⟩ := shrinkList_spec list
      (s := {
        prp := { s.prp with p_regva := caddr (s.prp.p_regva + stob d) }
        reg := { s.reg with r_list := l, r_pgoff := short (s.reg.r_pgoff - stoc d) }
        mem := m }) ht1 (by
        rw [length_drop]
        omega) h1 (by omega) hlsz
    refine ⟨l', lsz, m, ?_, ht2, hlsz', hm⟩
    rw [if_pos hseg, hst, map_some, hsl, bind_some, if_pos h0.le,
      if_neg Bool.false_ne_true]
  · have hd0 : d = 0 := by omega
    subst hd0
    refine ⟨s.reg.r_list, s.reg.r_listsz, s.mem, ?_, h, hlsz, rfl⟩
    rw [if_neg hseg, bind_some, if_pos h0.le, if_neg Bool.false_ne_true]
    unfold stob stoc
    rw [zero_mul, zero_mul, add_zero, sub_zero, hva, short_of (x := s.reg.r_pgoff) (by omega)]

/-- `ptexpand` when a region that grows upwards grows. -/
theorem ptexpand_grow_up (list : Bool) (tabs : List ℕ)
    (h : Tables s.reg.r_list s.reg.r_listsz False s.mem ts)
    (hlen : (ts.length : ℤ) = ctos s.reg.r_pgsz) (hoff : s.reg.r_pgoff = 0)
    (hlsz : s.reg.r_listsz = 0 ∨ s.reg.r_listsz = 1) (h0 : 0 < change)
    (h1 : 0 ≤ s.reg.r_pgsz) (h2 : s.reg.r_pgsz + change ≤ 32767) (hfresh : FreshTabs s.mem tabs) :
    ∃ ok l lsz m, s.ptexpand change true list tabs =
      some (ok, { s with reg := { s.reg with r_list := l, r_listsz := lsz }, mem := m }) ∧
      (lsz = 0 ∨ lsz = 1) ∧ (∀ t, t ∉ tabs → m.ent t = s.mem.ent t) ∧
      if ok then ∃ X, Tables l lsz False m (ts ++ X) ∧
        ((ts ++ X).length : ℤ) = ctos (s.reg.r_pgsz + change) else Tables l lsz False m ts := by
  have hcn : ctos s.reg.r_pgsz ≤ ctos (s.reg.r_pgsz + change) ∧
      ctos (s.reg.r_pgsz + change) ≤ 32 := by
    unfold ctos
    omega
  have hos : s.reg.r_pgoff + s.reg.r_pgsz = s.reg.r_pgsz := by rw [hoff, zero_add]
  unfold Vm.ptexpand
  rw [if_pos rfl]
  dsimp only
  rw [hos, if_neg (by omega), bind_some, if_neg (by omega)]
  rcases growList_spec (n := s.reg.r_pgsz + change) (o := s.reg.r_pgsz) list h (by omega)
    h2 hlsz with hg | ⟨l, hg, ht⟩
  · rw [hg]
    refine ⟨false, s.reg.r_list, s.reg.r_listsz, s.mem, rfl, hlsz, fun _ _ => rfl, ?_⟩
    rw [if_neg Bool.false_ne_true]
    exact h
  · rw [hg]
    have hroom : ctos (s.reg.r_pgsz + change) ≤ l.length := by
      have := ht.length
      unfold wordsPerRl at this
      omega
    obtain ⟨ok, l', m, hgt, hm, htab⟩ := growTables_up
      (s := { s with reg := { s.reg with r_list := l, r_listsz := 1 } }) ht hlen hcn.1 hroom
      (fun hz => by
        have hz' : s.reg.r_pgsz = 0 := hz
        rw [hz']
        rfl) hfresh
    refine ⟨ok, l', 1, m, ?_, Or.inr rfl, hm, htab⟩
    dsimp only
    rw [hgt, map_some]
    cases ok <;> rfl

/-- `ptexpand` when a stack grows, if the page tables can be allocated. -/
theorem ptexpand_grow_down (list : Bool) (tabs : List ℕ)
    (h : Tables s.reg.r_list s.reg.r_listsz zeros s.mem ts) (hz : zeros)
    (hlen : (ts.length : ℤ) = ctos s.reg.r_pgsz)
    (hlsz : s.reg.r_listsz = 0 ∨ s.reg.r_listsz = 1) (h0 : 0 < change)
    (h1 : 0 ≤ s.reg.r_pgsz) (h2 : s.reg.r_pgsz + change ≤ 32767) (hfresh : FreshTabs s.mem tabs)
    {d : ℤ} (hd : d = ctos (s.reg.r_pgsz + change) - ctos s.reg.r_pgsz)
    (htabs : s.reg.r_listsz < btorl (ctos (s.reg.r_pgsz + change) * 4) ∧ list = false ∨
      d ≤ tabs.length) :
    s.ptexpand change false list tabs = some (false, s) ∨
    ∃ l m X, s.ptexpand change false list tabs = some (true, {
        prp := { s.prp with p_regva := caddr (s.prp.p_regva - stob d) }
        reg := { s.reg with
          r_list := l
          r_listsz := 1
          r_pgoff := short (short (s.reg.r_pgoff + stoc d) - change) }
        mem := m }) ∧
      (∀ t, t ∉ tabs → m.ent t = s.mem.ent t) ∧ (X.length : ℤ) = d ∧
      Tables l 1 zeros m (X ++ ts) := by
  have hcn : ctos s.reg.r_pgsz ≤ ctos (s.reg.r_pgsz + change) ∧
      ctos (s.reg.r_pgsz + change) ≤ 32 := by
    unfold ctos
    omega
  unfold Vm.ptexpand
  rw [if_neg Bool.false_ne_true]
  dsimp only
  rw [if_neg (by omega), bind_some, if_neg (by omega)]
  rcases htabs with ⟨hneed, rfl⟩ | htabs
  · have hg : s.growList s.reg.r_pgsz (s.reg.r_pgsz + change) false = none := by
      unfold Vm.growList
      dsimp only
      rw [if_pos hneed, if_neg Bool.false_ne_true]
    rw [hg]
    exact Or.inl rfl
  rcases growList_spec (n := s.reg.r_pgsz + change) (o := s.reg.r_pgsz) list h (by omega)
    h2 hlsz with hg | ⟨l, hg, ht⟩
  · rw [hg]
    exact Or.inl rfl
  · rw [hg]
    have hroom : ctos (s.reg.r_pgsz + change) ≤ l.length := by
      have := ht.length
      unfold wordsPerRl at this
      omega
    rw [hd] at htabs
    obtain ⟨l', m, X, hgt, hm, hX, htab⟩ := growTables_down
      (s := { s with reg := { s.reg with r_list := l, r_listsz := 1 } }) ht hz hlen hcn.1 hroom
      hfresh htabs
    rw [← hd] at hgt hX
    refine Or.inr ⟨l', m, X, ?_, hm, hX, htab⟩
    dsimp only
    rw [hgt, map_some]
    rfl

/-- What a call that returned `r` did: the tables match the size, pages keep their entries, and
after -1 nothing that says where the region is has changed. -/
structure Vm.Grown (s : Vm) (r : ℤ) (t : Vm) : Prop where
  mapped : ∃ ts, t.Mapped ts
  keeps : s.Keeps t
  type : t.prp.p_type = s.prp.p_type
  refcnt : t.reg.r_refcnt = s.reg.r_refcnt
  failed : r = -1 → t.reg.r_pgsz = s.reg.r_pgsz ∧ t.reg.r_pgoff = s.reg.r_pgoff ∧
    t.prp.p_regva = s.prp.p_regva

theorem Vm.Keeps.refl : s.Keeps s := fun _ _ h _ => h

section

variable (hs : s.Mapped ts)

include hs

/-- A call that changes nothing. -/
theorem Vm.Mapped.grown (r : ℤ) : s.Grown r s :=
  ⟨⟨ts, hs⟩, .refl, rfl, rfl, fun _ => ⟨rfl, rfl, rfl⟩⟩

/-- A region that grows upwards shrinks. -/
theorem growreg_shrink_up (hup : s.prp.p_type ≠ .stack) (h0 : change < 0)
    (h1 : -change ≤ s.reg.r_pgsz) (hrc : s.reg.r_refcnt = 1) {e : GrowEnv} {type : ℕ} :
    ∃ t, s.growreg e change type = some (1, t) ∧ s.Grown 1 t := by
  have hoff := hs.other hup
  have hsz := hs.pgsz
  have hlen := hs.length
  obtain ⟨n, hn⟩ : ∃ n, n = s.reg.r_pgsz + change := ⟨_, rfl⟩
  have hcn : 0 ≤ ctos n ∧ ctos n ≤ ctos s.reg.r_pgsz := by
    unfold ctos
    omega
  obtain ⟨ent, hpages, hent⟩ := onPages_spec (s.reg.r_pgoff + s.reg.r_pgsz + change)
    (s.reg.r_pgoff + s.reg.r_pgsz) (fun _ => Vm.freedPage s.reg) hs.tables
    (by omega) (by
      rw [hlen]
      unfold ctos
      omega)
  obtain ⟨w, hw⟩ : ∃ w, w = ({ s with mem := { s.mem with ent := ent } } : Vm) := ⟨_, rfl⟩
  rw [← hw] at hpages
  have htab : Tables w.reg.r_list w.reg.r_listsz (s.prp.p_type = .stack) w.mem ts := by
    rw [hw]
    exact hs.tables.ent
  have hwreg : w.reg = s.reg := by rw [hw]
  obtain ⟨l, lsz, m, hexp, htab', hlsz, hm⟩ := ptexpand_shrink_up e.list
    e.tabs (s := w) htab (by rw [hwreg]; exact hlen) (by rw [hwreg]; exact hoff)
    (by rw [hwreg]; exact hs.listsz) h0 (by rw [hwreg]; omega) (by rw [hwreg]; omega)
  rw [hwreg, ← hn] at htab'
  have hshort : short n = n := short_of (by omega)
  obtain ⟨t, ht⟩ : ∃ t, t = Vm.resize { w with
      reg := { w.reg with r_list := l, r_listsz := lsz }, mem := m } change := ⟨_, rfl⟩
  have htsz : t.reg.r_pgsz = n := by
    rw [ht, ← hshort, hn, ← hwreg]
    rfl
  have htoff : t.reg.r_pgoff = 0 := by
    rw [ht, ← hoff, ← hwreg]
    rfl
  have htprp : t.prp = s.prp := by rw [ht, hw]; rfl
  have httab : Tables t.reg.r_list t.reg.r_listsz (s.prp.p_type = .stack) t.mem
      (ts.take (ctos n).toNat) := by
    rw [ht]
    exact htab'
  refine ⟨t, ?_, ⟨ts.take (ctos n).toNat, ?_, ?_, ?_, ?_, ?_, ?_, ?_⟩, ?_, by rw [htprp], ?_,
    fun h => absurd h (by decide)⟩
  · unfold Vm.growreg
    rw [if_pos ⟨Or.inr h1, hrc⟩, if_neg (by omega)]
    dsimp only
    rw [decide_eq_true hup, if_pos h0, if_pos rfl, if_pos rfl, hpages, bind_some, hexp,
      map_some, ht]
  · rw [htprp]
    exact hs.regva
  · omega
  · intro hst
    rw [htprp] at hst
    exact absurd hst hup
  · exact fun _ => htoff
  · rw [length_take, htsz]
    omega
  · rw [ht]
    exact hlsz
  · rw [htprp]
    exact httab
  · refine keeps_of_shift 0 (by omega) (by omega) (by omega) (by omega) (by omega) ?_ ?_
    · rw [htprp]
      unfold ctob
      rw [zero_mul, add_zero]
    · intro p hp1 hp2 hp3 hp4
      rw [add_zero] at hp3 hp4 ⊢
      have hq : (p / 1024).toNat < (ts.take (ctos n).toNat).length := by
        rw [length_take]
        unfold ctos at *
        omega
      have hq' : (p / 1024).toNat < ts.length := by
        rw [length_take] at hq
        omega
      rw [httab.pageEnt_eq hq, hs.tables.pageEnt_eq hq', List.getElem?_take_of_lt (by
        rw [length_take] at hq
        omega)]
      have hget := List.getElem?_eq_getElem hq'
      rw [hget, map_some, map_some]
      have htent : t.mem.ent = ent := by
        rw [ht]
        show m.ent = ent
        rw [hm, hw]
      rw [htent, hent _ _ (p % 1024) hget (by omega) (by omega) (by omega)]
  · rw [ht, ← hwreg]
    rfl

/-- A stack shrinks. -/
theorem growreg_shrink_down {e : GrowEnv} {type : ℕ}
    (hst : s.prp.p_type = .stack) (h0 : change < 0) (h1 : -change ≤ s.reg.r_pgsz)
    (hrc : s.reg.r_refcnt = 1)
    (hhalf : ctos (s.reg.r_pgsz + change) = ctos s.reg.r_pgsz ∨
      2 * ctos (s.reg.r_pgsz + change) ≤ ctos s.reg.r_pgsz) :
    ∃ t, s.growreg e change type = some (1, t) ∧ s.Grown 1 t := by
  obtain ⟨ho0, ho1, hmod⟩ := hs.stack hst
  have hsz := hs.pgsz
  have hlen := hs.length
  have hva := hs.regva
  obtain ⟨d, hd⟩ : ∃ d, d = ctos s.reg.r_pgsz - ctos (s.reg.r_pgsz + change) := ⟨_, rfl⟩
  have hd' : 0 ≤ d ∧ d ≤ 32 ∧ 0 ≤ ctos (s.reg.r_pgsz + change) := by
    unfold ctos at hd ⊢
    omega
  obtain ⟨ent, hpages, hent⟩ := onPages_spec s.reg.r_pgoff (s.reg.r_pgoff - change)
    (fun _ => Vm.freedPage s.reg) hs.tables ho0 (by
      rw [hlen]
      unfold ctos
      omega)
  obtain ⟨w, hw⟩ : ∃ w, w = ({ s with mem := { s.mem with ent := ent } } : Vm) := ⟨_, rfl⟩
  rw [← hw] at hpages
  have hwreg : w.reg = s.reg := by rw [hw]
  have hwprp : w.prp = s.prp := by rw [hw]
  have htab : Tables w.reg.r_list w.reg.r_listsz (s.prp.p_type = .stack) w.mem ts := by
    rw [hw]
    exact hs.tables.ent
  obtain ⟨l, lsz, m, hexp, htab', hlsz, hm⟩ := ptexpand_shrink_down (d := d) e.list
    e.tabs (s := w) htab hst (by rw [hwreg]; exact hlen) (by rw [hwreg]; exact hs.listsz)
    h0 (by rw [hwreg]; omega) (by rw [hwreg]; exact hsz.2) (by rw [hwreg]; exact ⟨ho0, ho1⟩)
    (by rw [hwprp]; unfold caddr; omega) (by rw [hwreg]; exact hhalf) (by rw [hwreg]; exact hd)
  obtain ⟨t, ht⟩ : ∃ t, t = Vm.resize {
      prp := { w.prp with p_regva := caddr (w.prp.p_regva + stob d) }
      reg := { w.reg with
        r_list := l
        r_listsz := lsz
        r_pgoff := short (short (w.reg.r_pgoff - stoc d) - change) }
      mem := m } change := ⟨_, rfl⟩
  have htsz : t.reg.r_pgsz = s.reg.r_pgsz + change := by
    rw [ht, ← short_of (x := s.reg.r_pgsz + change) (by omega), ← hwreg]
    rfl
  have htoff : t.reg.r_pgoff = s.reg.r_pgoff - 1024 * d - change := by
    rw [ht]
    show short (short (w.reg.r_pgoff - stoc d) - change) = _
    rw [hwreg]
    unfold stoc
    rw [short_of (x := s.reg.r_pgoff - d * 1024) (by omega), short_of]
    · omega
    · unfold ctos at hd
      omega
  have htoff' : 0 ≤ t.reg.r_pgoff := by
    rw [htoff]
    unfold ctos at hd
    omega
  have htprp : t.prp = { s.prp with p_regva := caddr (s.prp.p_regva + stob d) } := by
    rw [ht, ← hwprp]
    rfl
  have httype : t.prp.p_type = .stack := by rw [htprp]; exact hst
  have httab : Tables t.reg.r_list t.reg.r_listsz (s.prp.p_type = .stack) t.mem
      (ts.drop d.toNat) := by
    rw [ht]
    exact htab'
  refine ⟨t, ?_, ⟨ts.drop d.toNat, ?_, by omega, fun _ => ?_, fun hne => absurd httype hne, ?_, ?_,
    ?_⟩, ?_, httype.trans hst.symm, ?_, fun h => absurd h (by decide)⟩
  · unfold Vm.growreg
    rw [if_pos ⟨Or.inr h1, hrc⟩, if_neg (by omega)]
    dsimp only
    rw [decide_eq_false (not_not.mpr hst), if_pos h0, if_neg Bool.false_ne_true,
      if_neg Bool.false_ne_true, hpages, bind_some, hexp, map_some, ht]
  · rw [htprp]
    exact caddr_range
  · rw [htoff, htsz]
    unfold ctos at hd
    omega
  · rw [length_drop, htsz]
    omega
  · rw [ht]
    exact hlsz
  · rw [show t.prp.p_type = s.prp.p_type from httype.trans hst.symm]
    exact httab
  · refine keeps_of_shift (-(1024 * d)) hsz.2 (by omega) (by omega) (by omega) (by omega) ?_ ?_
    · rw [htprp]
      unfold caddr stob ctob
      dsimp only
      omega
    · intro p hp1 hp2 hp3 hp4
      have hq : (p / 1024).toNat < ts.length := by
        unfold ctos at *
        omega
      have hqd : ((p + -(1024 * d)) / 1024).toNat + d.toNat = (p / 1024).toNat := by omega
      have hmod' : (p + -(1024 * d)) % 1024 = p % 1024 := by omega
      have hget := List.getElem?_eq_getElem hq
      have htent : t.mem.ent = ent := by
        rw [ht]
        show m.ent = ent
        rw [hm, hw]
      rw [httab.pageEnt_eq (by rw [length_drop]; omega), hs.tables.pageEnt_eq hq,
        List.getElem?_drop, Nat.add_comm, hqd, hmod', hget, map_some, map_some, htent,
        hent _ _ (p % 1024) hget (by omega) (by omega) (by omega)]
  · rw [ht, ← hwreg]
    rfl

omit hs in
/-- A region that grows, step by step. -/
theorem growreg_grow_eq (type : ℕ) {e : GrowEnv} (h0 : 0 < change) (hrc : s.reg.r_refcnt = 1) :
    (s.Refused e change (decide (s.prp.p_type ≠ .stack)) ∧
      s.growreg e change type = some (-1, s)) ∨
    ¬ s.Refused e change (decide (s.prp.p_type ≠ .stack)) ∧ s.growreg e change type =
      (s.ptexpand change (decide (s.prp.p_type ≠ .stack)) e.list e.tabs).bind fun x =>
        if x.1 = false then some (-1, x.2)
        else
          let start := if decide (s.prp.p_type ≠ .stack) = true
            then s.reg.r_pgoff + s.reg.r_pgsz else x.2.reg.r_pgoff
          (x.2.onPages start (start + change) fun p => Vm.newPage x.2.reg e.wtci
            (x.2.reg.r_paddr / 4096 + (s.reg.r_pgoff + s.reg.r_pgsz) + (p - start)) type).map
            fun s => (1, s.resize change) := by
  unfold Vm.growreg
  rw [if_pos ⟨Or.inl h0.le, hrc⟩, if_neg (by omega)]
  dsimp only
  rw [if_neg (by omega)]
  by_cases h1 : s.reg.r_type ≠ .phmem ∧ (e.availsmem - change < e.t_minasmem ∨
      (s.reg.r_noswapcnt ≠ 0 ∧ e.availrmem - change < e.t_minarmem))
  · rw [if_pos h1]
    exact Or.inl ⟨Or.inl h1, rfl⟩
  · rw [if_neg h1]
    by_cases h2 : chkgrowth s.prp s.reg e.oprp change (decide (s.prp.p_type ≠ .stack)) = true
    · rw [if_pos h2]
      exact Or.inl ⟨Or.inr h2, rfl⟩
    · rw [if_neg h2]
      exact Or.inr ⟨not_or.mpr ⟨h1, h2⟩, rfl⟩

/-- A region that grows upwards grows, or the call fails. -/
theorem growreg_grow_up {e : GrowEnv} {type : ℕ}
    (hup : s.prp.p_type ≠ .stack) (h0 : 0 < change) (h1 : s.reg.r_pgsz + change ≤ 32767)
    (hrc : s.reg.r_refcnt = 1) (hfresh : FreshTabs s.mem e.tabs) :
    ∃ r t, s.growreg e change type = some (r, t) ∧ s.Grown r t := by
  have hoff := hs.other hup
  have hsz := hs.pgsz
  have hzeros : (s.prp.p_type = .stack) = False := propext (iff_false_intro hup)
  have htab0 := hs.tables
  rw [hzeros] at htab0
  rcases growreg_grow_eq type (e := e) h0 hrc with ⟨-, heq⟩ | ⟨-, heq⟩
  · exact ⟨-1, s, heq, hs.grown _⟩
  obtain ⟨ok, l, lsz, m, hexp, hlsz, hm, htab⟩ := ptexpand_grow_up e.list e.tabs htab0 hs.length
    hoff hs.listsz h0 hsz.1 h1 hfresh
  obtain ⟨w, hw⟩ : ∃ w, w = ({ s with
      reg := { s.reg with r_list := l, r_listsz := lsz }
      mem := m } : Vm) := ⟨_, rfl⟩
  have hwsz : w.reg.r_pgsz = s.reg.r_pgsz := by rw [hw]
  have hwoff : w.reg.r_pgoff = 0 := by rw [hw]; exact hoff
  have hwprp : w.prp = s.prp := by rw [hw]
  -- the entries of the tables there were
  have hwent : ∀ q t, ts[q]? = some t → m.ent t = s.mem.ent t := fun q t hq => by
    refine hm t fun ht => (hfresh.2 t ht).2 (htab0.pairs.mem_iff.mpr ?_)
    exact mem_of_getElem? hq
  rw [decide_eq_true hup, hexp, bind_some, ← hw] at heq
  dsimp only at heq
  cases ok with
  | false =>
    rw [if_pos rfl] at heq
    rw [if_neg Bool.false_ne_true] at htab
    have htabw : Tables w.reg.r_list w.reg.r_listsz False w.mem ts := by
      rw [hw]
      exact htab
    refine ⟨-1, w, heq, ⟨ts, ?_, ?_, ?_, fun _ => hwoff, ?_, ?_, ?_⟩, ?_, by rw [hwprp],
      by rw [hw], fun _ => ⟨hwsz, hwoff.trans hoff.symm, by rw [hwprp]⟩⟩
    · rw [hwprp]
      exact hs.regva
    · rw [hwsz]
      exact hsz
    · rw [hwprp]
      exact fun h => absurd h hup
    · rw [hwsz]
      exact hs.length
    · rw [hw]
      exact hlsz
    · rw [hwprp, hzeros]
      exact htabw
    · refine keeps_of_shift 0 hsz.2 (by omega) (by omega) (by omega) (by omega) ?_ ?_
      · rw [hwprp]
        unfold ctob
        rw [zero_mul, add_zero]
      · intro p hp1 hp2 _ _
        have hq : (p / 1024).toNat < ts.length := by
          have := hs.length
          unfold ctos at this
          omega
        have hget := List.getElem?_eq_getElem hq
        rw [add_zero, htabw.pageEnt_eq hq, htab0.pageEnt_eq hq, hget, map_some,
          map_some, show w.mem.ent = m.ent by rw [hw], hwent _ _ hget]
  | true =>
    rw [if_neg (by decide)] at heq
    rw [if_pos rfl] at htab
    obtain ⟨X, htab, hlen⟩ := htab
    have htabw : Tables w.reg.r_list w.reg.r_listsz False w.mem (ts ++ X) := by
      rw [hw]
      exact htab
    rw [if_pos rfl] at heq
    obtain ⟨ent, hpages, hent⟩ := onPages_spec (s.reg.r_pgoff + s.reg.r_pgsz)
      (s.reg.r_pgoff + s.reg.r_pgsz + change) (fun p => Vm.newPage w.reg e.wtci
        (w.reg.r_paddr / 4096 + (s.reg.r_pgoff + s.reg.r_pgsz) +
          (p - (s.reg.r_pgoff + s.reg.r_pgsz))) type) htabw (by omega) (by
        rw [hlen]
        unfold ctos
        omega)
    rw [hpages, map_some] at heq
    obtain ⟨t, ht⟩ : ∃ t, t = Vm.resize { w with mem := { w.mem with ent := ent } } change :=
      ⟨_, rfl⟩
    rw [← ht] at heq
    have htsz : t.reg.r_pgsz = s.reg.r_pgsz + change := by
      rw [ht, ← short_of (x := s.reg.r_pgsz + change) (by omega), ← hwsz]
      rfl
    have htoff : t.reg.r_pgoff = 0 := by
      rw [ht]
      exact hwoff
    have htprp : t.prp = s.prp := by
      rw [ht]
      exact hwprp
    have httab : Tables t.reg.r_list t.reg.r_listsz False t.mem (ts ++ X) := by
      rw [ht]
      exact htabw.ent
    refine ⟨1, t, heq, ⟨ts ++ X, ?_, by omega, ?_, fun _ => htoff, ?_, ?_, ?_⟩, ?_, by rw [htprp],
      by rw [ht, hw]; rfl, fun hr => absurd hr (by decide)⟩
    · rw [htprp]
      exact hs.regva
    · rw [htprp]
      exact fun h => absurd h hup
    · rw [htsz]
      exact hlen
    · rw [ht, hw]
      exact hlsz
    · rw [htprp, hzeros]
      exact httab
    · refine keeps_of_shift 0 hsz.2 (by omega) (by omega) (by omega) (by omega) ?_ ?_
      · rw [htprp]
        unfold ctob
        rw [zero_mul, add_zero]
      · intro p hp1 hp2 _ _
        have hq : (p / 1024).toNat < ts.length := by
          have := hs.length
          unfold ctos at this
          omega
        have hq' : (p / 1024).toNat < (ts ++ X).length := by
          rw [length_append]
          omega
        have hget := List.getElem?_eq_getElem hq
        have hget' : (ts ++ X)[(p / 1024).toNat]? = some ts[(p / 1024).toNat] := by
          rw [List.getElem?_append_left hq, hget]
        rw [add_zero, httab.pageEnt_eq hq', htab0.pageEnt_eq hq, hget, hget', map_some,
          map_some, show t.mem.ent = ent by rw [ht]; rfl,
          hent _ _ (p % 1024) hget' (by omega) (by omega) (by omega),
          show w.mem.ent = m.ent by rw [hw], hwent _ _ hget]

/-- A stack grows, if its page tables can be allocated, or the call fails. -/
theorem growreg_grow_down {e : GrowEnv} {type : ℕ}
    (hst : s.prp.p_type = .stack) (h0 : 0 < change) (h1 : s.reg.r_pgsz + change ≤ 32767)
    (hrc : s.reg.r_refcnt = 1) (hfresh : FreshTabs s.mem e.tabs)
    (htabs : s.NoList e change ∨
      ctos (s.reg.r_pgsz + change) - ctos s.reg.r_pgsz ≤ e.tabs.length) :
    ∃ r t, s.growreg e change type = some (r, t) ∧ s.Grown r t := by
  obtain ⟨ho0, ho1, hmod⟩ := hs.stack hst
  have hsz := hs.pgsz
  have hlen := hs.length
  obtain ⟨d, hd⟩ : ∃ d, d = ctos (s.reg.r_pgsz + change) - ctos s.reg.r_pgsz := ⟨_, rfl⟩
  have hd' : 0 ≤ d ∧ d ≤ 32 := by
    unfold ctos at hd
    omega
  rcases growreg_grow_eq type (e := e) h0 hrc with ⟨-, heq⟩ | ⟨-, heq⟩
  · exact ⟨-1, s, heq, hs.grown _⟩
  rw [decide_eq_false (not_not.mpr hst)] at heq
  rw [← hd] at htabs
  rcases ptexpand_grow_down e.list e.tabs hs.tables hst hlen hs.listsz h0 hsz.1 h1 hfresh hd htabs
    with hexp | ⟨l, m, X, hexp, hm, hX, htab⟩
  · rw [hexp, bind_some] at heq
    exact ⟨-1, s, heq, hs.grown _⟩
  obtain ⟨w, hw⟩ : ∃ w, w = ({
      prp := { s.prp with p_regva := caddr (s.prp.p_regva - stob d) }
      reg := { s.reg with
        r_list := l
        r_listsz := 1
        r_pgoff := short (short (s.reg.r_pgoff + stoc d) - change) }
      mem := m } : Vm) := ⟨_, rfl⟩
  rw [hexp, bind_some, ← hw] at heq
  dsimp only at heq
  rw [if_neg (by decide), if_neg Bool.false_ne_true] at heq
  have hwsz : w.reg.r_pgsz = s.reg.r_pgsz := by rw [hw]
  have hwprp : w.prp = { s.prp with p_regva := caddr (s.prp.p_regva - stob d) } := by rw [hw]
  have hwoff : w.reg.r_pgoff = s.reg.r_pgoff + 1024 * d - change := by
    rw [hw]
    show short (short (s.reg.r_pgoff + stoc d) - change) = _
    have hoff : 0 ≤ s.reg.r_pgoff + stoc d - change ∧ s.reg.r_pgoff + stoc d - change < 1024 := by
      rw [hd]
      unfold stoc ctos
      omega
    rw [short_short_sub (by omega)]
    unfold stoc
    omega
  have hwoff' : 0 ≤ w.reg.r_pgoff ∧ w.reg.r_pgoff < 1024 := by
    rw [hwoff]
    unfold ctos at hd
    omega
  have htabw : Tables w.reg.r_list w.reg.r_listsz (s.prp.p_type = .stack) w.mem (X ++ ts) := by
    rw [hw]
    exact htab
  have hXl : X.length = d.toNat := by omega
  obtain ⟨ent, hpages, hent⟩ := onPages_spec w.reg.r_pgoff (w.reg.r_pgoff + change)
    (fun p => Vm.newPage w.reg e.wtci (w.reg.r_paddr / 4096 + (s.reg.r_pgoff + s.reg.r_pgsz) +
      (p - w.reg.r_pgoff)) type) htabw hwoff'.1 (by
      rw [length_append]
      push_cast
      rw [hX, hlen, hwoff]
      unfold ctos
      omega)
  rw [hpages, map_some] at heq
  obtain ⟨t, ht⟩ : ∃ t, t = Vm.resize { w with mem := { w.mem with ent := ent } } change :=
    ⟨_, rfl⟩
  rw [← ht] at heq
  have htsz : t.reg.r_pgsz = s.reg.r_pgsz + change := by
    rw [ht, ← short_of (x := s.reg.r_pgsz + change) (by omega), ← hwsz]
    rfl
  have htoff : t.reg.r_pgoff = w.reg.r_pgoff := by
    rw [ht]
    rfl
  have htprp : t.prp = w.prp := by
    rw [ht]
    rfl
  have httype : t.prp.p_type = .stack := by
    rw [htprp, hwprp]
    exact hst
  have httab : Tables t.reg.r_list t.reg.r_listsz (s.prp.p_type = .stack) t.mem (X ++ ts) := by
    rw [ht]
    exact htabw.ent
  refine ⟨1, t, heq, ⟨X ++ ts, ?_, by omega, fun _ => ⟨by omega, by omega, ?_⟩,
    fun hne => absurd httype hne, ?_, ?_, ?_⟩, ?_, httype.trans hst.symm, by rw [ht, hw]; rfl,
    fun hr => absurd hr (by decide)⟩
  · rw [htprp, hwprp]
    exact caddr_range
  · rw [htoff, htsz, hwoff]
    omega
  · rw [length_append, htsz]
    push_cast
    omega
  · rw [ht, hw]
    exact Or.inr rfl
  · rw [show t.prp.p_type = s.prp.p_type from httype.trans hst.symm]
    exact httab
  · refine keeps_of_shift (1024 * d) hsz.2 (by omega) (by omega) (by omega) (by omega) ?_ ?_
    · rw [htprp, hwprp]
      unfold caddr stob ctob
      dsimp only
      omega
    · intro p hp1 hp2 hp3 hp4
      have hq : (p / 1024).toNat < ts.length := by
        unfold ctos at *
        omega
      have hqd : ((p + 1024 * d) / 1024).toNat = X.length + (p / 1024).toNat := by omega
      have hmod' : (p + 1024 * d) % 1024 = p % 1024 := by omega
      have hget := List.getElem?_eq_getElem hq
      have hget' : (X ++ ts)[X.length + (p / 1024).toNat]? = some ts[(p / 1024).toNat] := by
        rw [List.getElem?_append_right (by omega), Nat.add_sub_cancel_left, hget]
      have hmem : ts[(p / 1024).toNat] ∉ e.tabs := fun hm =>
        (hfresh.2 _ hm).2 (hs.tables.pairs.mem_iff.mpr (getElem_mem hq))
      rw [httab.pageEnt_eq (by rw [length_append]; omega), hs.tables.pageEnt_eq hq, hqd, hmod',
        hget, hget', map_some, map_some, show t.mem.ent = ent by rw [ht]; rfl,
        hent _ _ (p % 1024) hget' (by omega) (by omega) (by push_cast; omega),
        show w.mem.ent = m.ent by rw [hw], hm _ hmem]

omit hs in
/-- One call of `growreg`. -/
theorem growreg_spec (type : ℕ) {e : GrowEnv} (hs : s.Mapped ts) (hrc : s.reg.r_refcnt = 1)
    (h1 : -change ≤ s.reg.r_pgsz) (hfresh : FreshTabs s.mem e.tabs) (hC : s.Meets e change) :
    ∃ r t, s.growreg e change type = some (r, t) ∧ s.Grown r t := by
  rcases lt_trichotomy change 0 with h0 | h0 | h0
  · obtain ⟨hpos, -⟩ | ⟨-, hC⟩ := hC
    · omega
    · by_cases hst : s.prp.p_type = .stack
      · exact ⟨1, growreg_shrink_down hs hst h0 h1 hrc ((hC hst).1 h0)⟩
      · exact ⟨1, growreg_shrink_up hs hst h0 h1 hrc⟩
  · subst h0
    refine ⟨0, s, ?_, hs.grown _⟩
    unfold Vm.growreg
    rw [if_pos ⟨Or.inl le_rfl, hrc⟩, if_pos rfl]
  · obtain ⟨-, href⟩ | ⟨hsz, hC⟩ := hC
    · rcases growreg_grow_eq type (e := e) h0 hrc with ⟨-, heq⟩ | ⟨hno, -⟩
      · exact ⟨-1, s, heq, hs.grown _⟩
      · exact absurd href hno
    · by_cases hst : s.prp.p_type = .stack
      · exact growreg_grow_down hs hst h0 hsz hrc hfresh ((hC hst).2 h0)
      · exact growreg_grow_up hs hst h0 hsz hrc hfresh

/-! ## Runs -/

/-- A call of `growreg` with what it finds. -/
structure GrowCall where
  env : GrowEnv
  change : ℤ
  type : ℕ

instance : Decidable (FreshTabs m tabs) := inferInstanceAs (Decidable (_ ∧ _))

/-- A call of `growreg`.  The allocator returns table pairs that are not in use. -/
def growStep (s : Vm) (c : GrowCall) : Option Vm :=
  if FreshTabs s.mem c.env.tabs then
    (s.growreg c.env c.change c.type).map Prod.snd
  else none

/-- A region of one process that has no pages yet. -/
structure Vm.Empty (s : Vm) : Prop where
  regva : 0 ≤ s.prp.p_regva ∧ s.prp.p_regva < 2 ^ 32
  refcnt : s.reg.r_refcnt = 1
  pgsz : s.reg.r_pgsz = 0
  pgoff : s.reg.r_pgoff = 0
  listsz : s.reg.r_listsz = 0
  list : s.reg.r_list = []
  pairs : s.mem.pairs = []
  good : s.mem.badfree = false

/-- Each segment of a region has an allocated table pair of its own, there are no other table pairs,
and nothing but table pairs in use was ever freed. -/
structure Vm.TablesMatch (s : Vm) : Prop where
  segment : ∀ i, ctost s.reg.r_pgoff ≤ i → i < ctos (s.reg.r_pgoff + s.reg.r_pgsz) →
    ∃ t, t ≠ 0 ∧ t ∈ s.mem.pairs ∧ s.reg.r_list[i.toNat]? = some t
  own : ∀ i j t, ctost s.reg.r_pgoff ≤ i → i < ctos (s.reg.r_pgoff + s.reg.r_pgsz) →
    ctost s.reg.r_pgoff ≤ j → j < ctos (s.reg.r_pgoff + s.reg.r_pgsz) →
    s.reg.r_list[i.toNat]? = some t → s.reg.r_list[j.toNat]? = some t → i = j
  noleak : ∀ t ∈ s.mem.pairs, ∃ i, ctost s.reg.r_pgoff ≤ i ∧
    i < ctos (s.reg.r_pgoff + s.reg.r_pgsz) ∧ s.reg.r_list[i.toNat]? = some t
  good : s.mem.badfree = false

omit hs in
theorem Vm.Empty.mapped (h : s.Empty) : s.Mapped [] where
  regva := h.regva
  pgsz := by
    rw [h.pgsz]
    omega
  stack _ := by
    rw [h.pgsz, h.pgoff]
    decide
  other _ := h.pgoff
  length := by
    rw [h.pgsz]
    rfl
  listsz := Or.inl h.listsz
  tables := by
    rw [h.list, h.listsz]
    exact ⟨⟨[], rfl, fun _ _ h => (nomatch h)⟩, rfl, fun _ h => (nomatch h), nodup_nil,
      h.pairs ▸ List.Perm.nil, h.good⟩

/-- The segments are the first words of the list. -/
theorem Vm.Mapped.segments :
    ctost s.reg.r_pgoff = 0 ∧ ctos (s.reg.r_pgoff + s.reg.r_pgsz) = ts.length := by
  rw [hs.length]
  by_cases hst : s.prp.p_type = .stack
  · have := hs.stack hst
    unfold ctost ctos
    omega
  · rw [hs.other hst, zero_add]
    exact ⟨rfl, rfl⟩

theorem Vm.Mapped.tablesMatch : s.TablesMatch := by
  obtain ⟨ho, hn⟩ := hs.segments
  have hget : ∀ i, 0 ≤ i → i < (ts.length : ℤ) →
      ∃ hi : i.toNat < ts.length, s.reg.r_list[i.toNat]? = some ts[i.toNat] := fun i h1 h2 =>
    ⟨by omega, hs.tables.getElem? (by omega)⟩
  refine ⟨fun i h1 h2 => ?_, fun i j t h1 h2 h3 h4 hi hj => ?_, fun t ht => ?_, hs.tables.good⟩
  · rw [ho] at h1
    rw [hn] at h2
    obtain ⟨hi, h⟩ := hget i h1 h2
    have hmem := getElem_mem hi
    exact ⟨_, hs.tables.ne _ hmem, hs.tables.pairs.mem_iff.mpr hmem, h⟩
  · rw [ho] at h1 h3
    rw [hn] at h2 h4
    obtain ⟨hi', hi''⟩ := hget i h1 h2
    obtain ⟨hj', hj''⟩ := hget j h3 h4
    rw [hi''] at hi
    rw [hj''] at hj
    have := (List.Nodup.getElem_inj_iff hs.tables.nodup).mp (Option.some.inj (hi.trans hj.symm))
    omega
  · obtain ⟨n, hn', rfl⟩ := getElem_of_mem (hs.tables.pairs.mem_iff.mp ht)
    refine ⟨n, by omega, by omega, ?_⟩
    rw [Int.toNat_natCast]
    exact hs.tables.getElem? hn'

end

/-- What every state of a run is like. -/
theorem growStep_mapped {c : GrowCall} (hs : (∃ ts, s.Mapped ts) ∧ s.reg.r_refcnt = 1)
    (hC : s.Meets c.env c.change) (h : growStep s c = some t) :
    (∃ ts, t.Mapped ts) ∧ t.reg.r_refcnt = 1 := by
  obtain ⟨⟨ts, hs⟩, hrc⟩ := hs
  unfold growStep at h
  split_ifs at h with hf
  have h1 : -c.change ≤ s.reg.r_pgsz := by
    by_contra hno
    unfold Vm.growreg at h
    have := hs.pgsz
    rw [if_neg (fun h => by omega)] at h
    exact nomatch h
  obtain ⟨r, u, hu, hg⟩ := growreg_spec c.type hs hrc h1 hf hC
  rw [hu] at h
  cases h
  exact ⟨hg.mapped, hg.refcnt.trans hrc⟩

/-- **The page tables match the size.**  After any calls that meet `Meets` each segment of the
region has its own allocated page tables, nothing is leaked, and nothing was freed twice.  The next
such call keeps the entries of the pages that stay, and one that fails leaves the region where it
is. -/
theorem region_tables (hs : s.Empty) {cs : List GrowCall}
    (hC : StepsMeet (fun s c => s.Meets c.env c.change) growStep s cs)
    (h : exec growStep s cs = some t) :
    t.TablesMatch ∧ ∀ c : GrowCall, FreshTabs t.mem c.env.tabs → -c.change ≤ t.reg.r_pgsz →
      t.Meets c.env c.change → ∃ r u, t.growreg c.env c.change c.type = some (r, u) ∧
        growStep t c = some u ∧ u.TablesMatch ∧ t.Keeps u ∧
        (r = -1 → u.reg.r_pgsz = t.reg.r_pgsz ∧ u.reg.r_pgoff = t.reg.r_pgoff ∧
          u.prp.p_regva = t.prp.p_regva) := by
  obtain ⟨⟨ts, hm⟩, hrc⟩ := exec_invariant
    (P := fun s : Vm => (∃ ts, s.Mapped ts) ∧ s.reg.r_refcnt = 1)
    (fun s c t hs hC h => growStep_mapped hs hC h) ⟨⟨[], hs.mapped⟩, hs.refcnt⟩ hC h
  refine ⟨hm.tablesMatch, fun c hf h1 hC => ?_⟩
  obtain ⟨r, u, hu, ⟨⟨ts', hg⟩, hkeeps, -, -, hfail⟩⟩ :=
    growreg_spec c.type hm hrc h1 hf hC
  refine ⟨r, u, hu, ?_, hg.tablesMatch, hkeeps, hfail⟩
  unfold growStep
  rw [if_pos hf, hu]
  rfl

/-- A stack without pages at the end of the stack segment. -/
def newStack : Vm where
  prp := ⟨USRSTACK, .stack, false⟩
  reg := ⟨.priv, false, false, 1, 0, 0, 0, 0, 0, 0, []⟩
  mem := ⟨[], false, fun _ _ => .zero⟩

/-- A call with enough memory and no neighbour, and the table pairs `tabs`. -/
def roomyCall (change : ℤ) (tabs : List ℕ) : GrowCall :=
  ⟨⟨100000, 100000, 25, 25, none, true, tabs, fun _ => (false, false)⟩, change, 0⟩

instance {e : GrowEnv} {lotohi : Bool} : Decidable (s.Refused e change lotohi) :=
  inferInstanceAs (Decidable (_ ∨ _))

instance {e : GrowEnv} : Decidable (s.NoList e change) :=
  inferInstanceAs (Decidable (_ ∧ _))

instance {e : GrowEnv} : Decidable (s.Meets e change) :=
  inferInstanceAs (Decidable (_ ∨ _))

/-- A stack grows to four segments and shrinks to two. -/
theorem region_tables_run : ∃ t, exec growStep newStack
      [roomyCall 2000 [1, 2], roomyCall 2000 [3, 4, 5], roomyCall (-2047) []] = some t ∧
    t.TablesMatch := by
  obtain ⟨t, ht⟩ : ∃ t, exec growStep newStack
      [roomyCall 2000 [1, 2], roomyCall 2000 [3, 4, 5], roomyCall (-2047) []] = some t :=
    isSome_iff_exists.mp (by decide +kernel)
  refine ⟨t, ht, (region_tables ?_ ?_ ht).1⟩
  · exact ⟨by decide, rfl, rfl, rfl, rfl, rfl, rfl, rfl⟩
  · exact stepsMeet_of_allSteps (c := fun s c => decide (s.Meets c.env c.change))
      (fun s c h => of_decide_eq_true h) (by decide +kernel)

/-- A stack of three segments gives up one, and a null pointer is freed.  And a stack that grows by
two segments when only one table pair can be allocated is left two segments lower. -/
theorem stack_tables_lost :
    (exec growStep newStack [roomyCall 3072 [1, 2, 3], roomyCall (-1024) []]).map
      (fun t => t.mem.badfree) = some true ∧
    (newStack.growreg (roomyCall 2048 [1]).env 2048 0).map
      (fun x => (x.1, x.2.prp.p_regva, x.2.reg.r_pgsz, x.2.reg.r_pgoff)) =
      some (-1, USRSTACK - stob 2, 0, 2048) := by
  decide +kernel

end Os
