import OpusSysV.Os.Page
import Mathlib.Data.List.Perm.Basic

/-!
# The lists of page frames are consistent

* `Queues` — the queue of free frames and the list of deleted ones.
* `Chains` — the hash chains.  No two frames of a chain share a key.
* `Lists` — both, with the counts of frames.  Each routine keeps them.
* `page_lists` — the result, for every order of calls from `meminit` on that gives `addmem` no
  negative size; `addmem_negative` shows what one does.
-/

namespace Os

open Lib Function List Option

namespace Pages

variable {c : PageConf} {s t : Pages} {Q Q' D D' : List ℕ} {C C' : ℕ → List ℕ} {f g h n : ℕ}
variable {k : PageKey} {x : Pfp}

/-- The queue of free frames and the list of deleted ones are linked in a circle, and have no frame
in common.  The second one is not there before the first `delmem`. -/
structure Links (s : Pages) (Q D : List ℕ) : Prop where
  circ : Circ s.next s.prev .phead (Q.map .pfd)
  deleted : (s.next .delmem = none ∧ D = []) ∨ Circ s.next s.prev .delmem (D.map .pfd)
  disjoint : ∀ f ∈ Q, f ∉ D

/-- A frame is on the queue if and only if it is flagged so, and nobody uses it then. -/
structure Queues (c : PageConf) (s : Pages) (Q D : List ℕ) : Prop extends Links s Q D where
  mem : ∀ f, f ∈ Q ↔ (s.pfd f).queue = true
  notMem : ∀ f ∈ D, (s.pfd f).queue = false
  idle : ∀ f, f ∈ Q ∨ f ∈ D → (s.pfd f).pf_use = 0
  known : ∀ f, f ∈ Q ∨ f ∈ D ∨ 0 < (s.pfd f).pf_use → f < c.maxclick

/-- The cell that a cell of a chain names; a slot is the head of its chain. -/
def hnext (s : Pages) : Hptr → Option Hptr
  | .slot h => some (s.phash h)
  | .pfd f => (s.pfd f).pf_hchain

/-- The hash chains: each ends at its own slot; a frame is on a chain if and only if it is flagged
so, and then on the one that its key selects, with no other frame of that key. -/
structure Chains (c : PageConf) (s : Pages) (C : ℕ → List ℕ) : Prop where
  path : ∀ h, Path s.hnext (.slot h) ((C h).map .pfd) (.slot h)
  nodup : ∀ h, (C h).Nodup
  mem : ∀ h f, f ∈ C h ↔ (s.pfd f).hash = true ∧ s.frameSlot c f = h
  keys : ∀ f g, (s.pfd f).hash = true → (s.pfd g).hash = true →
    s.frameSlot c f = s.frameSlot c g → s.frameKey f = s.frameKey g → f = g
  blkno : ∀ f, (s.pfd f).hash = true → (s.pfd f).pf_blkno.toNat < 2 ^ 24
  known : ∀ f, (s.pfd f).hash = true → f < c.maxclick

/-! ## What the two depend on -/

/-- The fields of a frame that the queue depends on. -/
def qview (x : Pfdat) : Bool × ℤ := (x.queue, x.pf_use)

/-- The fields of a frame that its key and its slot depend on. -/
def kview (x : Pfdat) : Bool × Bool × BitVec 32 × BitVec 32 × BitVec 32 :=
  (x.hash, x.swap, x.pf_blkno, x.pf_dev, x.pf_inumber)

/-- The fields of a frame that the hash chains depend on. -/
def hview (x : Pfdat) : (Bool × Bool × BitVec 32 × BitVec 32 × BitVec 32) × Option Hptr :=
  (kview x, x.pf_hchain)

/-- A view of the frames is not changed by changing another field of one. -/
theorem setPfd_view {V : Type*} (v : Pfdat → V) {u : Pfdat → Pfdat}
    (hv : v (u (s.pfd f)) = v (s.pfd f)) (g : ℕ) : v ((s.setPfd f u).pfd g) = v (s.pfd g) := by
  unfold setPfd
  dsimp only
  rw [update_apply]
  split_ifs with hg
  · rw [hg, hv]
  · rfl

theorem setPfd_self {u : Pfdat → Pfdat} : (s.setPfd f u).pfd f = u (s.pfd f) :=
  update_self ..

theorem setPfd_of_ne {u : Pfdat → Pfdat} (hg : g ≠ f) : (s.setPfd f u).pfd g = s.pfd g :=
  update_of_ne hg ..

theorem Queues.congr (hq : Queues c s Q D) (hn : t.next = s.next) (hp : t.prev = s.prev)
    (hv : ∀ f, qview (t.pfd f) = qview (s.pfd f)) : Queues c t Q D := by
  have hqueue : ∀ f, (t.pfd f).queue = (s.pfd f).queue := fun f => congrArg Prod.fst (hv f)
  have huse : ∀ f, (t.pfd f).pf_use = (s.pfd f).pf_use := fun f => congrArg Prod.snd (hv f)
  exact
    { circ := by rw [hn, hp]; exact hq.circ
      deleted := by rw [hn, hp]; exact hq.deleted
      disjoint := hq.disjoint
      mem := fun f => by rw [hqueue]; exact hq.mem f
      notMem := fun f => by rw [hqueue]; exact hq.notMem f
      idle := fun f => by rw [huse]; exact hq.idle f
      known := fun f => by rw [huse]; exact hq.known f }

section

variable (hv : kview (t.pfd f) = kview (s.pfd f))

include hv

theorem hash_congr :
    (t.pfd f).hash = (s.pfd f).hash :=
  congrArg Prod.fst hv

theorem blkno_congr :
    (t.pfd f).pf_blkno = (s.pfd f).pf_blkno :=
  congrArg (fun v => v.2.2.1) hv

theorem frameSlot_congr :
    t.frameSlot c f = s.frameSlot c f := by
  simp only [kview, Prod.mk.injEq] at hv
  obtain ⟨h1, h2, h3, h4, h5⟩ := hv
  unfold frameSlot
  dsimp only
  rw [h1, h2, h3, h4, h5]

theorem frameKey_congr :
    t.frameKey f = s.frameKey f := by
  simp only [kview, Prod.mk.injEq] at hv
  obtain ⟨-, -, h3, h4, h5⟩ := hv
  unfold frameKey
  rw [h3, h4, h5]

end

/-- What is written in frames on no chain does not matter. -/
theorem Chains.congr (hc : Chains c s C) (hp : t.phash = s.phash)
    (hh : ∀ f, (t.pfd f).hash = (s.pfd f).hash)
    (hv : ∀ f, (s.pfd f).hash = true → hview (t.pfd f) = hview (s.pfd f)) : Chains c t C := by
  have hk : ∀ f, (s.pfd f).hash = true → kview (t.pfd f) = kview (s.pfd f) := fun f hf =>
    congrArg Prod.fst (hv f hf)
  exact
    { path := fun h => (hc.path h).congr fun y hy => by
        cases y with
        | slot h' =>
          show some (t.phash h') = some (s.phash h')
          rw [hp]
        | pfd f =>
          have hf : f ∈ C h := by simpa using hy
          exact congrArg Prod.snd (hv f ((hc.mem h f).mp hf).1)
      nodup := hc.nodup
      mem := fun h f => by
        rw [hh, hc.mem h f]
        refine and_congr_right fun hf => ?_
        rw [frameSlot_congr (hk f hf)]
      keys := fun f g hf hg => by
        rw [hh] at hf hg
        rw [frameSlot_congr (hk f hf), frameSlot_congr (hk g hg), frameKey_congr (hk f hf),
          frameKey_congr (hk g hg)]
        exact hc.keys f g hf hg
      blkno := fun f hf => by
        rw [hh] at hf
        rw [blkno_congr (hk f hf)]
        exact hc.blkno f hf
      known := fun f hf => hc.known f (by rwa [hh] at hf) }

/-- Only frames, links and hash slots have changed. -/
def Same (s t : Pages) : Prop :=
  t = { s with pfd := t.pfd, next := t.next, prev := t.prev, phash := t.phash }

theorem Same.trans {u : Pages} (h1 : Same s t) (h2 : Same t u) : Same s u := by
  unfold Same at h1 h2 ⊢
  rw [h2, h1]

/-! ## Links of the queue -/

/-- Only links have changed. -/
def Relinked (s t : Pages) : Prop := t = { s with next := t.next, prev := t.prev }

theorem Relinked.trans {u : Pages} (h1 : Relinked s t) (h2 : Relinked t u) : Relinked s u := by
  unfold Relinked at h1 h2 ⊢
  rw [h2, h1]

theorem Relinked.same (h : Relinked s t) : Same s t := by
  unfold Relinked at h
  unfold Same
  rw [h]

theorem Relinked.pfd (h : Relinked s t) : t.pfd = s.pfd := by
  unfold Relinked at h
  rw [h]

theorem Relinked.phash (h : Relinked s t) : t.phash = s.phash := by
  unfold Relinked at h
  rw [h]

namespace Links

section

variable (hl : Links s Q D)

include hl

theorem nodup : Q.Nodup :=
  List.Nodup.of_map _ (nodup_cons.mp hl.circ.nodup).2

/-- A cell of one list is not a cell of the other. -/
theorem ne_cell {y z : Pfp} (hy : y ∈ Pfp.delmem :: D.map .pfd)
    (hz : z ∈ Pfp.phead :: Q.map .pfd) : y ≠ z := by
  rintro rfl
  rcases mem_cons.mp hy with rfl | hy
  · simp at hz
  · obtain ⟨d, hd, rfl⟩ := List.mem_map.mp hy
    simp only [mem_cons, reduceCtorEq, List.mem_map, Pfp.pfd.injEq, exists_eq_right,
      false_or] at hz
    exact hl.disjoint d hz hd

/-- Changes of cells that are not those of the list of deleted frames. -/
theorem deleted_congr {next prev : Pfp → Option Pfp}
    (hn : ∀ y ∈ Pfp.delmem :: D.map .pfd, next y = s.next y)
    (hp : ∀ y ∈ Pfp.delmem :: D.map .pfd, prev y = s.prev y) :
    (next .delmem = none ∧ D = []) ∨ Circ next prev .delmem (D.map .pfd) := by
  rcases hl.deleted with ⟨h1, h2⟩ | h
  · exact Or.inl ⟨by rw [hn _ mem_cons_self]; exact h1, h2⟩
  · exact Or.inr (h.congr hn hp)

/-- The cells next to a frame of the queue. -/
theorem around (hf : f ∈ Q) : ∃ p n, s.prev (.pfd f) = some p ∧
    s.next (.pfd f) = some n ∧ p ∈ Pfp.phead :: Q.map .pfd ∧ n ∈ Pfp.phead :: Q.map .pfd := by
  obtain ⟨l₁, l₂, rfl⟩ := append_of_mem hf
  have hc := hl.circ
  rw [map_append, map_cons] at hc ⊢
  refine ⟨_, _, hc.prev_eq, hc.next_eq, ?_, ?_⟩
  · have hm : (l₁.map Pfp.pfd).getLastD .phead ∈ Pfp.phead :: l₁.map .pfd := mem_getLastD
    rcases mem_cons.mp hm with h1 | h1
    · rw [h1]
      exact mem_cons_self
    · exact mem_cons_of_mem _ (mem_append_left _ h1)
  · cases l₂ with
    | nil => exact mem_cons_self
    | cons a l => simp

/-- A frame of the queue is unlinked. -/
theorem unlink (hf : f ∈ Q) :
    ∃ t, s.unlink (.pfd f) = some t ∧ Relinked s t ∧ Links t (Q.erase f) D ∧
      t.next .delmem = s.next .delmem := by
  obtain ⟨p, n, hp, hn, hpm, hnm⟩ := hl.around hf
  unfold Pages.unlink
  rw [hp, hn]
  refine ⟨_, rfl, rfl, ⟨?_, ?_, ?_⟩, update_of_ne (hl.ne_cell mem_cons_self hpm) _ _⟩
  · obtain ⟨l₁, l₂, rfl⟩ := append_of_mem hf
    have hc := hl.circ
    have hnd := hl.nodup
    have hf1 : f ∉ l₁ := fun h1 =>
      (disjoint_of_nodup_append hnd) h1 mem_cons_self
    rw [map_append, map_cons] at hc
    rw [erase_append_right _ hf1, erase_cons_head, map_append]
    exact hc.remove hp hn
  · refine hl.deleted_congr (fun y hy => ?_) fun y hy => ?_
    · exact update_of_ne (hl.ne_cell hy hpm) _ _
    · exact update_of_ne (hl.ne_cell hy hnm) _ _
  · exact fun g hg => hl.disjoint g (mem_of_mem_erase hg)

/-- A frame that is on no list is put at the head of the queue. -/
theorem atHead (hf : f ∉ Q) (hd : f ∉ D) :
    ∃ t, s.atHead .phead (.pfd f) = some t ∧ Relinked s t ∧ Links t (f :: Q) D ∧
      t.next .delmem = s.next .delmem := by
  have hn := hl.circ.fwd.head
  have hnm : (Q.map Pfp.pfd).headD .phead ∈ Pfp.phead :: Q.map .pfd := by cases Q <;> simp
  have hx : ∀ y ∈ Pfp.delmem :: D.map .pfd, y ≠ .pfd f := by
    rintro y hy rfl
    simp [hd] at hy
  unfold Pages.atHead
  rw [hn]
  refine ⟨_, rfl, rfl, ⟨?_, ?_, ?_⟩, ?_⟩
  · exact hl.circ.push (by simp [hf]) hn
  · refine hl.deleted_congr (fun y hy => ?_) fun y hy => ?_
    · dsimp only
      rw [update_of_ne (hl.ne_cell hy mem_cons_self),
        update_of_ne (hx y hy)]
    · dsimp only
      rw [update_of_ne (hl.ne_cell hy hnm), update_of_ne (hx y hy)]
  · intro g hg
    rcases mem_cons.mp hg with rfl | hg
    · exact hd
    · exact hl.disjoint g hg
  · dsimp only
    rw [update_of_ne (by simp), update_of_ne (by simp)]

/-- A frame that is on no list is put at the end of the queue. -/
theorem atTail (hf : f ∉ Q) (hd : f ∉ D) :
    ∃ t, s.atTail (.pfd f) = some t ∧ Relinked s t ∧ Links t (Q ++ [f]) D := by
  have hp := hl.circ.bwd.head
  have hpm : (Q.map Pfp.pfd).reverse.headD .phead ∈ Pfp.phead :: Q.map .pfd := by
    rw [headD_eq_head?_getD, List.head?_reverse, ← getLastD_eq_getLast?]
    exact mem_getLastD
  have hx : ∀ y ∈ Pfp.delmem :: D.map .pfd, y ≠ .pfd f := by
    rintro y hy rfl
    simp [hd] at hy
  unfold Pages.atTail
  rw [hp]
  refine ⟨_, rfl, rfl, ?_, ?_, ?_⟩
  · rw [map_append]
    exact hl.circ.snoc (by simp [hf]) hp
  · refine hl.deleted_congr (fun y hy => ?_) fun y hy => ?_
    · dsimp only
      rw [update_of_ne (hl.ne_cell hy hpm), update_of_ne (hx y hy)]
    · dsimp only
      rw [update_of_ne (hl.ne_cell hy mem_cons_self),
        update_of_ne (hx y hy)]
  · intro g hg
    rcases mem_append.mp hg with hg | hg
    · exact hl.disjoint g hg
    · rw [mem_singleton.mp hg]
      exact hd

end

end Links

/-! ## The hash chains -/

/-- The cell where the loop over a chain starts. -/
theorem Chains.phash_eq (hc : Chains c s C) (h : ℕ) :
    s.phash h = ((C h).map Hptr.pfd).headD (.slot h) :=
  Option.some.inj (hc.path h).head

/-- Frames that fail the test are passed. -/
theorem hfind_pass {test : ℕ → Bool} {l l' : List ℕ} {a p : Hptr} {k : ℕ}
    (hl : Path s.hnext a ((l ++ l').map .pfd) (.slot h)) (ht : ∀ g ∈ l, test g = false) :
    s.hfind test h p (((l ++ l').map Hptr.pfd).headD (.slot h)) (l.length + k) =
      s.hfind test h ((l.map Hptr.pfd).getLastD p) ((l'.map Hptr.pfd).headD (.slot h)) k := by
  induction l generalizing a p with
  | nil => rw [nil_append, length_nil, Nat.zero_add]; rfl
  | cons f l ih =>
    obtain ⟨-, hl⟩ := hl
    have hn : (s.pfd f).pf_hchain = some (((l ++ l').map Hptr.pfd).headD (.slot h)) := hl.head
    have hstep : s.hfind test h p (.pfd f) (l.length + k + 1) =
        s.hfind test h (.pfd f) (((l ++ l').map Hptr.pfd).headD (.slot h)) (l.length + k) := by
      rw [hfind, ht f mem_cons_self, hn]
      rfl
    rw [length_cons, Nat.add_right_comm]
    refine hstep.trans ?_
    rw [map_cons, getLastD_cons]
    exact ih hl fun g hg => ht g (mem_cons_of_mem _ hg)

/-- A chain has no more frames than there are. -/
theorem Chains.length_le (hc : Chains c s C) (h : ℕ) : (C h).length ≤ c.maxclick := by
  have hsub : C h ⊆ List.range c.maxclick := fun f hf =>
    mem_range.mpr (hc.known f ((hc.mem h f).mp hf).1)
  have hlen := (subperm_of_subset (hc.nodup h) hsub).length_le
  rwa [length_range] at hlen

/-- The loop stops at the first frame that passes the test. -/
theorem Chains.hsearch_found (hc : Chains c s C) (test : ℕ → Bool) {l₁ l₂ : List ℕ}
    (hl : C h = l₁ ++ f :: l₂) (hf : test f = true) (ht : ∀ g ∈ l₁, test g = false) :
    s.hsearch c test h = some ((l₁.map Hptr.pfd).getLastD (s.phash h), .pfd f) := by
  have hpath := hc.path h
  have hlen := hc.length_le h
  rw [hl, length_append, length_cons] at hlen
  obtain ⟨k, hk⟩ : ∃ k, c.maxclick + 1 = l₁.length + (k + 1) :=
    ⟨c.maxclick - l₁.length, by omega⟩
  have hph := hc.phash_eq h
  rw [hl] at hpath hph
  have hpass := hfind_pass (p := s.phash h) (k := k + 1) hpath ht
  rw [← hph, ← hk] at hpass
  unfold hsearch
  rw [hpass, map_cons, headD_cons]
  unfold hfind
  dsimp only
  rw [if_pos hf]

/-- The loop stops at the slot if no frame passes the test. -/
theorem Chains.hsearch_none (hc : Chains c s C) (test : ℕ → Bool)
    (ht : ∀ g ∈ C h, test g = false) :
    s.hsearch c test h = some (((C h).map Hptr.pfd).getLastD (s.phash h), .slot h) := by
  have hpath := hc.path h
  have hlen := hc.length_le h
  obtain ⟨k, hk⟩ : ∃ k, c.maxclick + 1 = (C h).length + (k + 1) :=
    ⟨c.maxclick - (C h).length, by omega⟩
  have hph := hc.phash_eq h
  rw [← append_nil (C h)] at hpath
  have hpass := hfind_pass (p := s.phash h) (k := k + 1) hpath ht
  rw [append_nil, ← hph, ← hk] at hpass
  unfold hsearch
  rw [hpass, map_nil, headD_nil, hfind, if_pos rfl]

/-- The fields of a frame other than the link of its chain. -/
def unlinked (x : Pfdat) : Pfdat := { x with pf_hchain := none }

/-- The cell behind which the loop stops is made to name another one. -/
theorem rechain_spec (s : Pages) (h : ℕ) (l₁ : List ℕ) (pfd1 q : Hptr)
    (h1 : l₁ = [] → s.phash h = pfd1) (h2 : ∀ g ∈ l₁, .pfd g ≠ pfd1) :
    ∃ t, s.rechain h ((l₁.map Hptr.pfd).getLastD (s.phash h)) pfd1 q = some t ∧
      t.hnext = update s.hnext ((l₁.map Hptr.pfd).getLastD (.slot h)) (some q) ∧
      (∀ g, unlinked (t.pfd g) = unlinked (s.pfd g)) ∧ Same s t ∧ t.next = s.next ∧
      t.prev = s.prev := by
  unfold rechain
  rcases eq_nil_or_concat l₁ with rfl | ⟨l, g, rfl⟩
  · rw [map_nil, getLastD_nil, getLastD_nil, if_pos (h1 rfl)]
    refine ⟨_, rfl, ?_, fun g => rfl, rfl, rfl, rfl⟩
    funext x
    cases x with
    | slot h' =>
      by_cases hh : h' = h
      · subst hh
        rw [update_self]
        show some (update s.phash h' q h') = some q
        rw [update_self]
      · rw [update_of_ne (by simpa using hh)]
        show some (update s.phash h q h') = some (s.phash h')
        rw [update_of_ne hh]
    | pfd f => rfl
  · have hlast : ∀ a, ((l ++ [g]).map Hptr.pfd).getLastD a = .pfd g := fun a => by simp
    have hne : (Hptr.pfd g) ≠ pfd1 := h2 g (by simp)
    rw [concat_eq_append, hlast, hlast, if_neg hne]
    refine ⟨_, rfl, ?_, fun f => ?_, rfl, rfl, rfl⟩
    · funext x
      cases x with
      | slot h' => rw [update_of_ne (by simp)]; rfl
      | pfd f =>
        by_cases hf : f = g
        · subst hf
          rw [update_self]
          show ((s.setPfd f _).pfd f).pf_hchain = _
          rw [setPfd_self]
        · rw [update_of_ne (by simpa using hf)]
          show ((s.setPfd g _).pfd f).pf_hchain = _
          rw [setPfd_of_ne hf]
          rfl
    · exact setPfd_view unlinked rfl f

/-- A frame is on one chain. -/
theorem Chains.eq_of_mem (hc : Chains c s C) {h' : ℕ} (h1 : f ∈ C h) (h2 : f ∈ C h') : h = h' := by
  rw [← ((hc.mem h f).mp h1).2, ((hc.mem h' f).mp h2).2]

/-- A cell of one chain is not a cell of another. -/
theorem Chains.ne_cell (hc : Chains c s C) {h' : ℕ} (hh : h' ≠ h) {y z : Hptr}
    (hy : y ∈ Hptr.slot h' :: (C h').map .pfd) (hz : z ∈ Hptr.slot h :: (C h).map .pfd) :
    y ≠ z := by
  rintro rfl
  rcases mem_cons.mp hy with rfl | hy
  · simp [hh] at hz
  · obtain ⟨d, hd, rfl⟩ := List.mem_map.mp hy
    simp only [mem_cons, reduceCtorEq, List.mem_map, Hptr.pfd.injEq, exists_eq_right,
      false_or] at hz
    exact hh (hc.eq_of_mem hd hz)

/-- The cells of a chain differ. -/
theorem Chains.nodup_cells (hc : Chains c s C) (h : ℕ) :
    (Hptr.slot h :: (C h).map .pfd).Nodup := by
  refine nodup_cons.mpr ⟨by simp, (hc.nodup h).map fun _ _ he => Hptr.pfd.inj he⟩

/-- A frame leaves its chain. -/
theorem Chains.unchain (hc : Chains c s C) {l₁ l₂ : List ℕ} (hl : C h = l₁ ++ f :: l₂)
    (hu : t.hnext = update
      (update s.hnext ((l₁.map Hptr.pfd).getLastD (.slot h)) (s.hnext (.pfd f)))
      (.pfd f) none)
    (hk : ∀ g, g ≠ f → kview (t.pfd g) = kview (s.pfd g)) (hf : (t.pfd f).hash = false) :
    Chains c t (update C h (l₁ ++ l₂)) := by
  have hcells := hc.nodup_cells h
  have hpath := hc.path h
  have hnd := hc.nodup h
  rw [hl, map_append, map_cons] at hcells hpath
  rw [hl] at hnd
  have hmem : f ∈ C h := by simp [hl]
  have hfl : f ∉ l₁ ++ l₂ := fun hm => by
    have h1 := nodup_middle.mp hnd
    exact (nodup_cons.mp h1).1 hm
  have hlast : (l₁.map Hptr.pfd).getLastD (.slot h) ∈ Hptr.slot h :: (C h).map .pfd := by
    have hm : (l₁.map Hptr.pfd).getLastD (.slot h) ∈ Hptr.slot h :: l₁.map .pfd := mem_getLastD
    rw [hl, map_append]
    rcases mem_cons.mp hm with h1 | h1
    · rw [h1]
      exact mem_cons_self
    · exact mem_cons_of_mem _ (mem_append_left _ h1)
  have hne : ∀ g ∈ l₁ ++ l₂, g ≠ f := fun g hg he => hfl (he ▸ hg)
  have hcell : ∀ y ∈ Hptr.slot h :: (l₁.map .pfd ++ l₂.map .pfd), y ≠ .pfd f := by
    rintro y hy rfl
    rw [← map_append] at hy
    simp only [mem_cons, reduceCtorEq, List.mem_map, Hptr.pfd.injEq, exists_eq_right,
      false_or] at hy
    exact hfl hy
  have hash : ∀ g, (t.pfd g).hash = true → g ≠ f ∧ (s.pfd g).hash = true := by
    intro g hg
    have hgf : g ≠ f := by
      rintro rfl
      rw [hf] at hg
      cases hg
    exact ⟨hgf, by rw [← hash_congr (hk g hgf)]; exact hg⟩
  refine
    { path := fun h' => ?_
      nodup := fun h' => ?_
      mem := fun h' g => ?_
      keys := fun g g' hg hg' => ?_
      blkno := fun g hg => ?_
      known := fun g hg => hc.known g (hash g hg).2 }
  · rw [update_apply]
    split_ifs with hh
    · subst hh
      rw [map_append]
      refine hpath.remove hcells ?_ fun y hy hyl => ?_
      · have hlf : (l₁.map Hptr.pfd).getLastD (.slot h') ≠ .pfd f := by
          refine hcell _ ?_
          have hm : (l₁.map Hptr.pfd).getLastD (.slot h') ∈ Hptr.slot h' :: l₁.map .pfd :=
            mem_getLastD
          rcases mem_cons.mp hm with h1 | h1
          · rw [h1]
            exact mem_cons_self
          · exact mem_cons_of_mem _ (mem_append_left _ h1)
        rw [hu, update_of_ne hlf, update_self]
      · rw [hu, update_of_ne (hcell y hy), update_of_ne hyl]
    · refine (hc.path h').congr fun y hy => ?_
      have hyf : y ≠ .pfd f := hc.ne_cell hh hy (mem_cons_of_mem _ (mem_map_of_mem hmem))
      rw [hu, update_of_ne hyf, update_of_ne (hc.ne_cell hh hy hlast)]
  · rw [update_apply]
    split_ifs with hh
    · exact hnd.sublist (List.Sublist.append_left (sublist_cons_self f l₂) l₁)
    · exact hc.nodup h'
  · by_cases hgf : g = f
    · subst hgf
      rw [hf]
      refine iff_of_false ?_ (by simp)
      rw [update_apply]
      split_ifs with hh
      · exact hfl
      · exact fun hm => hh (hc.eq_of_mem hm hmem)
    · rw [hash_congr (hk g hgf), frameSlot_congr (hk g hgf), ← hc.mem h' g]
      rw [update_apply]
      split_ifs with hh
      · rw [hh, hl]
        simp [hgf]
      · rfl
  · obtain ⟨h1, h2⟩ := hash g hg
    obtain ⟨h1', h2'⟩ := hash g' hg'
    rw [frameSlot_congr (hk g h1), frameSlot_congr (hk g' h1'), frameKey_congr (hk g h1),
      frameKey_congr (hk g' h1')]
    exact hc.keys g g' h2 h2'
  · obtain ⟨h1, h2⟩ := hash g hg
    rw [blkno_congr (hk g h1)]
    exact hc.blkno g h2

/-- A frame on no chain is put at the end of one. -/
theorem Chains.enchain (hc : Chains c s C) (hf : (s.pfd f).hash = false)
    (hu : t.hnext = update
      (update s.hnext (((C h).map Hptr.pfd).getLastD (.slot h)) (some (.pfd f)))
      (.pfd f) (some (.slot h)))
    (hk : ∀ g, g ≠ f → kview (t.pfd g) = kview (s.pfd g)) (hash : (t.pfd f).hash = true)
    (hslot : t.frameSlot c f = h) (hkey : ∀ g ∈ C h, s.frameKey g ≠ t.frameKey f)
    (hblk : (t.pfd f).pf_blkno.toNat < 2 ^ 24) (hlt : f < c.maxclick) :
    Chains c t (update C h (C h ++ [f])) := by
  have hcells := hc.nodup_cells h
  have hfc : ∀ h', f ∉ C h' := fun h' hm => by
    have h1 := ((hc.mem h' f).mp hm).1
    rw [hf] at h1
    cases h1
  have hlast : ((C h).map Hptr.pfd).getLastD (.slot h) ∈ Hptr.slot h :: (C h).map .pfd :=
    mem_getLastD
  have hcell : ∀ h', ∀ y ∈ Hptr.slot h' :: (C h').map .pfd, y ≠ .pfd f := by
    rintro h' y hy rfl
    simp only [mem_cons, reduceCtorEq, List.mem_map, Hptr.pfd.injEq, exists_eq_right,
      false_or] at hy
    exact hfc h' hy
  have hashes : ∀ g, g ≠ f → (t.pfd g).hash = true → (s.pfd g).hash = true := fun g hg h1 => by
    rwa [← hash_congr (hk g hg)]
  -- the other frames on the slot of `f` are those of its chain
  have huniq : ∀ g, g ≠ f → (t.pfd g).hash = true → t.frameSlot c g = t.frameSlot c f →
      t.frameKey g ≠ t.frameKey f := by
    intro g hg h1 h2
    rw [frameSlot_congr (hk g hg), hslot] at h2
    rw [frameKey_congr (hk g hg)]
    exact hkey g ((hc.mem h g).mpr ⟨hashes g hg h1, h2⟩)
  refine
    { path := fun h' => ?_
      nodup := fun h' => ?_
      mem := fun h' g => ?_
      keys := fun g g' hg hg' hs hkk => ?_
      blkno := fun g hg => ?_
      known := fun g hg => ?_ }
  · rw [update_apply]
    split_ifs with hh
    · subst hh
      rw [map_append]
      have hpath := hc.path h'
      rw [← append_nil ((C h').map Hptr.pfd)] at hpath hcells
      refine hpath.insert hcells ?_ ?_ fun y hy hyl => ?_
      · rw [hu, update_of_ne (hcell h' _ hlast), update_self]
      · rw [append_nil] at hpath
        rw [hu, update_self, hpath.last]
      · rw [append_nil] at hy
        rw [hu, update_of_ne (hcell h' y hy), update_of_ne hyl]
    · refine (hc.path h').congr fun y hy => ?_
      rw [hu, update_of_ne (hcell h' y hy), update_of_ne (hc.ne_cell hh hy hlast)]
  · rw [update_apply]
    split_ifs with hh
    · subst hh
      exact (hc.nodup h').append (nodup_singleton f) (by simpa using hfc h')
    · exact hc.nodup h'
  · by_cases hgf : g = f
    · subst hgf
      rw [hash, hslot]
      by_cases hh : h' = h
      · subst hh
        simp
      · rw [update_of_ne hh]
        exact iff_of_false (hfc h') fun h1 => hh h1.2.symm
    · rw [hash_congr (hk g hgf), frameSlot_congr (hk g hgf), ← hc.mem h' g]
      by_cases hh : h' = h
      · subst hh
        simp [hgf]
      · rw [update_of_ne hh]
  · by_cases hgf : g = f
    · by_cases hgf' : g' = f
      · rw [hgf, hgf']
      · rw [hgf] at hs hkk
        exact absurd hkk.symm (huniq g' hgf' hg' hs.symm)
    · by_cases hgf' : g' = f
      · rw [hgf'] at hs hkk
        exact absurd hkk (huniq g hgf hg hs)
      · rw [frameSlot_congr (hk g hgf), frameSlot_congr (hk g' hgf')] at hs
        rw [frameKey_congr (hk g hgf), frameKey_congr (hk g' hgf')] at hkk
        exact hc.keys g g' (hashes g hgf hg) (hashes g' hgf' hg') hs hkk
  · by_cases hgf : g = f
    · rw [hgf]
      exact hblk
    · rw [blkno_congr (hk g hgf)]
      exact hc.blkno g (hashes g hgf hg)
  · by_cases hgf : g = f
    · rw [hgf]
      exact hlt
    · exact hc.known g (hashes g hgf hg)

/-! ## `premove`, `pbremove` and `pinsert` -/

/-- A frame on the queue goes to its head, unless it is there. -/
theorem Queues.requeue (hq : Queues c s Q D) (f : ℕ) :
    ∃ t Q', s.requeue f = some t ∧ Relinked s t ∧ Queues c t Q' D ∧ Q'.Perm Q ∧
      t.next .delmem = s.next .delmem ∧ ∀ l, Q = f :: l → t = s ∧ Q' = Q := by
  unfold Pages.requeue
  by_cases hc : (s.pfd f).queue = true ∧ s.next .phead ≠ some (.pfd f)
  · have hf := (hq.mem f).mpr hc.1
    obtain ⟨t, ht, hrt, hlt, hdt⟩ := hq.toLinks.unlink hf
    obtain ⟨u, hu, hru, hlu, hdu⟩ := hlt.atHead
      (fun hm => (hq.nodup.mem_erase_iff.mp hm).1 rfl) (hq.disjoint f hf)
    have hr := hrt.trans hru
    have hperm : (f :: Q.erase f).Perm Q := (perm_cons_erase hf).symm
    rw [if_pos hc, ht]
    refine ⟨u, f :: Q.erase f, hu, hr, ?_, hperm, hdu.trans hdt, ?_⟩
    · exact
        { toLinks := hlu
          mem := fun g => by rw [hperm.mem_iff, hr.pfd]; exact hq.mem g
          notMem := fun g => by rw [hr.pfd]; exact hq.notMem g
          idle := fun g => by rw [hperm.mem_iff, hr.pfd]; exact hq.idle g
          known := fun g => by rw [hperm.mem_iff, hr.pfd]; exact hq.known g }
    · rintro l rfl
      exact absurd hq.circ.fwd.head hc.2
  · rw [if_neg hc]
    exact ⟨s, Q, rfl, rfl, hq, List.Perm.refl Q, rfl, fun l _ => ⟨rfl, rfl⟩⟩

theorem hnext_dissociate : (s.dissociate f).hnext = update s.hnext (.pfd f) none := by
  funext x
  cases x with
  | slot h => rw [update_of_ne (by simp)]; rfl
  | pfd g =>
    by_cases hg : g = f
    · subst hg
      rw [update_self]
      show ((s.setPfd g _).pfd g).pf_hchain = none
      rw [setPfd_self]
    · rw [update_of_ne (by simpa using hg)]
      show ((s.setPfd f _).pfd g).pf_hchain = _
      rw [setPfd_of_ne hg]
      rfl

/-- What becomes of the lists when a frame leaves its chain. -/
structure Detached (c : PageConf) (s t : Pages) (f : ℕ) (Q Q' D : List ℕ) (C' : ℕ → List ℕ) :
    Prop where
  chains : Chains c t C'
  queues : Queues c t Q' D
  perm : Q'.Perm Q
  head : ∀ l, Q = f :: l → Q' = Q
  delmem : t.next .delmem = s.next .delmem
  same : Same s t
  hash : (t.pfd f).hash = false
  view : ∀ g, qview (t.pfd g) = qview (s.pfd g)

/-- The common part of `premove` and `pbremove`. -/
theorem Chains.detach (hc : Chains c s C) (hq : Queues c s Q D) {l₁ l₂ : List ℕ}
    (hl : C h = l₁ ++ f :: l₂) : ∃ t Q' C',
      ((s.pfd f).pf_hchain.bind fun q =>
        (s.rechain h ((l₁.map Hptr.pfd).getLastD (s.phash h)) (.pfd f) q).bind fun s =>
          (s.requeue f).map fun s => (1, s.dissociate f)) = some (1, t) ∧
      Detached c s t f Q Q' D C' := by
  have hpath := hc.path h
  have hph := hc.phash_eq h
  have hnd := hc.nodup h
  rw [hl, map_append, map_cons] at hpath
  rw [hl] at hph hnd
  have hq1 : (s.pfd f).pf_hchain = some ((l₂.map Hptr.pfd).headD (.slot h)) :=
    (path_append.mp hpath).2.head
  have hl1 : ∀ g ∈ l₁, Hptr.pfd g ≠ .pfd f := by
    intro g hg he
    obtain rfl := Hptr.pfd.inj he
    exact (disjoint_of_nodup_append hnd) hg mem_cons_self
  obtain ⟨t, ht, hnx, hun, hsame, hn, hp⟩ := rechain_spec s h l₁ (.pfd f)
    ((l₂.map Hptr.pfd).headD (.slot h)) (fun he => by rw [hph, he]; rfl) hl1
  have hview : ∀ g, qview (t.pfd g) = qview (s.pfd g) := fun g => by
    have h1 := congrArg qview (hun g)
    exact h1
  have hkview : ∀ g, kview (t.pfd g) = kview (s.pfd g) := fun g => by
    have h1 := congrArg kview (hun g)
    exact h1
  obtain ⟨u, Q', hu, hr, hqu, hperm, hdel, hhead⟩ := (hq.congr hn hp hview).requeue f
  rw [hq1, bind_some, ht, bind_some, hu]
  have hd : ∀ g, qview ((u.dissociate f).pfd g) = qview (u.pfd g) := setPfd_view qview rfl
  have huq : (u.dissociate f).hnext = update (update s.hnext
      ((l₁.map Hptr.pfd).getLastD (.slot h)) (s.hnext (.pfd f))) (.pfd f) none := by
    have hut : u.hnext = t.hnext := by
      funext x
      cases x with
      | slot h' =>
        show some (u.phash h') = some (t.phash h')
        rw [hr.phash]
      | pfd g =>
        show (u.pfd g).pf_hchain = (t.pfd g).pf_hchain
        rw [hr.pfd]
    rw [hnext_dissociate, hut, hnx]
    have hsf : s.hnext (.pfd f) = some ((l₂.map Hptr.pfd).headD (.slot h)) := hq1
    rw [hsf]
  have hself : ((u.dissociate f).pfd f).hash = false := by
    show ((u.setPfd f _).pfd f).hash = false
    rw [setPfd_self]
  refine ⟨_, Q', _, rfl,
    { chains := hc.unchain hl huq (fun g hg => ?_) hself
      queues := hqu.congr rfl rfl hd
      perm := hperm
      head := fun l he => (hhead l he).2
      delmem := hdel.trans (by rw [hn])
      same := (hsame.trans hr.same).trans rfl
      hash := hself
      view := fun g => ?_ }⟩
  · rw [← hkview g, ← hr.pfd]
    show kview ((u.setPfd f _).pfd g) = _
    rw [setPfd_of_ne hg]
  · rw [hd g, hr.pfd]
    exact hview g

theorem premove_spec (hc : Chains c s C) (hq : Queues c s Q D) (hf : (s.pfd f).hash = true) :
    ∃ t Q' C', s.premove c f = some (1, t) ∧ Detached c s t f Q Q' D C' := by
  have hm : f ∈ C (s.frameSlot c f) := (hc.mem _ f).mpr ⟨hf, rfl⟩
  obtain ⟨l₁, l₂, hl⟩ := append_of_mem hm
  have hnd := hc.nodup (s.frameSlot c f)
  rw [hl] at hnd
  have hfound := hc.hsearch_found (fun g => g = f) hl (by simp) fun g hg => by
    have hne : g ≠ f := by
      rintro rfl
      exact (disjoint_of_nodup_append hnd) hg mem_cons_self
    simp [hne]
  obtain ⟨t, Q', C', ht, hd⟩ := hc.detach hq hl
  refine ⟨t, Q', C', ?_, hd⟩
  unfold premove
  dsimp only
  rw [if_pos hf, hfound]
  exact ht

theorem pbremove_spec {rp : ℕ} {d : DiskDesc} {shift : ℕ} (hc : Chains c s C)
    (hq : Queues c s Q D) (hk : s.key c rp d = some (k, shift)) :
    s.pbremove c rp d = some (0, s) ∨
      ∃ f t Q' C', s.pbremove c rp d = some (1, t) ∧ Detached c s t f Q Q' D C' := by
  obtain ⟨h, hh⟩ : ∃ h, keySlot c k shift = h := ⟨_, rfl⟩
  by_cases hex : ∃ f ∈ C h, s.frameKey f = k
  · obtain ⟨f, hf, hfk⟩ := hex
    obtain ⟨l₁, l₂, hl⟩ := append_of_mem hf
    have hnd := hc.nodup h
    rw [hl] at hnd
    have hmf := (hc.mem h f).mp hf
    have hfound := hc.hsearch_found (fun g => s.frameKey g = k) hl (by simp [hfk])
      fun g hg => by
        have hmg := (hc.mem h g).mp (by rw [hl]; exact mem_append_left _ hg)
        simp only [decide_eq_false_iff_not]
        intro hgk
        have he := hc.keys g f hmg.1 hmf.1 (hmg.2.trans hmf.2.symm) (hgk.trans hfk.symm)
        rw [he] at hg
        exact (disjoint_of_nodup_append hnd) hg mem_cons_self
    obtain ⟨t, Q', C', ht, hd⟩ := hc.detach hq hl
    refine Or.inr ⟨f, t, Q', C', ?_, hd⟩
    unfold pbremove
    rw [hk, bind_some]
    dsimp only
    rw [hh, hfound]
    exact ht
  · have hnone := hc.hsearch_none (h := h) (fun g => s.frameKey g = k) fun g hg => by
      simp only [decide_eq_false_iff_not]
      exact fun hgk => hex ⟨g, hg, hgk⟩
    refine Or.inl ?_
    unfold pbremove
    rw [hk, bind_some]
    dsimp only
    rw [hh, hnone]
    rfl

/-- A block number of 24 bits is shifted alike as a signed and as an unsigned integer. -/
theorem sshiftRight_blkno {b : BitVec 32} (hb : b.toNat < 2 ^ 24) (n : ℕ) :
    b.sshiftRight n = b >>> n := by
  refine BitVec.sshiftRight_eq_of_msb_false ?_
  rw [BitVec.msb_eq_false_iff_two_mul_lt]
  omega

/-- The key of a descriptor, with the shift that goes with its type. -/
theorem key_spec {rp shift : ℕ} {d : DiskDesc} (hk : s.key c rp d = some (k, shift)) :
    k.blkno.toNat < 2 ^ 24 ∧ shift = if d.dbd_type = .swap then DPPSHFT else FILESHFT := by
  have hblk : (d.dbd_blkno.setWidth 32).toNat < 2 ^ 24 := by
    rw [BitVec.toNat_setWidth]
    exact Nat.lt_of_le_of_lt (Nat.mod_le _ _) d.dbd_blkno.isLt
  unfold key at hk
  dsimp only at hk
  split_ifs at hk with hd
  · cases hk
    exact ⟨hblk, by rw [if_pos hd]⟩
  · obtain ⟨ip, -, he⟩ := map_eq_some_iff.mp hk
    cases he
    exact ⟨hblk, by rw [if_neg hd]⟩

theorem pinsert_spec {rp : ℕ} {d : DiskDesc} (hc : Chains c s C) (hq : Queues c s Q D)
    (ht : s.pinsert c rp d f = some t) :
    ∃ C', Chains c t C' ∧ Queues c t Q D ∧ Same s t := by
  unfold pinsert at ht
  obtain ⟨⟨k, shift⟩, hk, ht⟩ := bind_eq_some_iff.mp ht
  obtain ⟨⟨hch, huse⟩, ht⟩ := ite_none_right_eq_some.mp ht
  obtain ⟨⟨p, pfd1⟩, hfind, ht⟩ := bind_eq_some_iff.mp ht
  obtain ⟨hblk, hshift⟩ := key_spec hk
  obtain ⟨h, hh⟩ : ∃ h, keySlot c k shift = h := ⟨_, rfl⟩
  rw [hh] at hfind ht
  have hnone : ∀ g ∈ C h, s.frameKey g ≠ k := by
    intro g hg hgk
    obtain ⟨l₁, l₂, hl⟩ := append_of_mem hg
    have hmg := (hc.mem h g).mp hg
    have hnd := hc.nodup h
    rw [hl] at hnd
    have hfound := hc.hsearch_found (fun g => s.frameKey g = k) hl (by simp [hgk])
      fun g' hg' => by
        have hmg' := (hc.mem h g').mp (by rw [hl]; exact mem_append_left _ hg')
        simp only [decide_eq_false_iff_not]
        intro hgk'
        have he := hc.keys g' g hmg'.1 hmg.1 (hmg'.2.trans hmg.2.symm) (hgk'.trans hgk.symm)
        rw [he] at hg'
        exact (disjoint_of_nodup_append hnd) hg' mem_cons_self
    rw [hfound] at hfind
    cases hfind
    cases ht
  rw [hc.hsearch_none (fun g => s.frameKey g = k) fun g hg => by
    simp only [decide_eq_false_iff_not]
    exact hnone g hg] at hfind
  cases hfind
  have hunhashed : (s.pfd f).hash = false := by
    refine Bool.eq_false_iff.mpr fun hf => ?_
    obtain ⟨l₁, l₂, hl⟩ := append_of_mem ((hc.mem _ f).mpr ⟨hf, rfl⟩)
    have hpath := hc.path (s.frameSlot c f)
    rw [hl, map_append, map_cons] at hpath
    have hn : (s.pfd f).pf_hchain = _ := (path_append.mp hpath).2.head
    rw [hch] at hn
    cases hn
  obtain ⟨u, hu, hnx, hun, hsame, hn, hp⟩ := rechain_spec s h (C h) (.slot h) (.pfd f)
    (fun he => by rw [hc.phash_eq h, he]; rfl) (by simp)
  obtain ⟨u', hu', ht⟩ := map_eq_some_iff.mp ht
  rw [hu] at hu'
  cases hu'
  subst ht
  have hview : ∀ g, qview (u.pfd g) = qview (s.pfd g) := fun g => by
    have h1 := congrArg qview (hun g)
    exact h1
  have hkview : ∀ g, kview (u.pfd g) = kview (s.pfd g) := fun g => by
    have h1 := congrArg kview (hun g)
    exact h1
  obtain ⟨upd, hupd⟩ : ∃ upd : Pfdat → Pfdat, upd = fun x =>
      let x := { x with
        pf_hchain := some (.slot h), pf_dev := k.dev, pf_inumber := k.inumber,
        pf_blkno := k.blkno, hash := true }
      if d.dbd_type = .swap then { x with pf_swpi := d.dbd_swpi, swap := true }
      else { x with swap := false } := ⟨_, rfl⟩
  rw [← hupd]
  -- the fields of the frame, whatever the type of the descriptor
  have hfields : ∀ x, (upd x).hash = true ∧ (upd x).swap = decide (d.dbd_type = .swap) ∧
      (upd x).pf_blkno = k.blkno ∧ (upd x).pf_dev = k.dev ∧ (upd x).pf_inumber = k.inumber ∧
      (upd x).pf_hchain = some (.slot h) ∧ qview (upd x) = qview x := by
    intro x
    rw [hupd]
    by_cases hd : d.dbd_type = .swap
    · simp [hd, qview]
    · simp [hd, qview]
  obtain ⟨h1, h2, h3, h4, h5, h6, h7⟩ := hfields (u.pfd f)
  have hself : (u.setPfd f upd).pfd f = upd (u.pfd f) := setPfd_self
  have hq' : ∀ g, qview ((u.setPfd f upd).pfd g) = qview (s.pfd g) := fun g =>
    (setPfd_view qview h7 g).trans (hview g)
  refine ⟨_, hc.enchain (h := h) hunhashed ?_ (fun g hg => ?_) ?_ ?_ (fun g hg => ?_) ?_ ?_,
    hq.congr hn hp hq', hsame.trans rfl⟩
  · funext x
    cases x with
    | slot h' =>
      rw [update_of_ne (by simp), ← hnx]
      rfl
    | pfd g =>
      by_cases hg : g = f
      · subst hg
        rw [update_self]
        show ((u.setPfd g upd).pfd g).pf_hchain = _
        rw [hself, h6]
      · rw [update_of_ne (by simpa using hg), ← hnx]
        show ((u.setPfd f upd).pfd g).pf_hchain = _
        rw [setPfd_of_ne hg]
        rfl
  · rw [setPfd_of_ne hg]
    exact hkview g
  · rw [hself]
    exact h1
  · unfold frameSlot
    dsimp only
    rw [hself, h1, h2, h3, h4, h5, ← sshiftRight_blkno hblk, ← hh, hshift]
    unfold keySlot
    by_cases hd : d.dbd_type = .swap <;> simp [hd]
  · have hkf : (u.setPfd f upd).frameKey f = k := by
      unfold frameKey
      rw [hself, h3, h4, h5]
    rw [hkf]
    exact hnone g hg
  · rw [hself, h3]
    exact hblk
  · exact hq.known f (Or.inr (Or.inr huse))

/-! ## Taking frames -/

/-- A frame leaves its chain if it is on one. -/
theorem unhash_spec (hc : Chains c s C) (hq : Queues c s Q D) (f : ℕ) :
    ∃ t Q' C', (if (s.pfd f).hash then (s.premove c f).map Prod.snd else some s) = some t ∧
      Detached c s t f Q Q' D C' := by
  by_cases hf : (s.pfd f).hash = true
  · obtain ⟨t, Q', C', ht, hd⟩ := premove_spec hc hq hf
    rw [if_pos hf, ht]
    exact ⟨t, Q', C', rfl, hd⟩
  · rw [if_neg hf]
    exact ⟨s, Q, C, rfl, hc, hq, List.Perm.refl Q, fun l _ => rfl, rfl, rfl,
      Bool.eq_false_iff.mpr hf, fun g => rfl⟩

/-- At most one frame has changed, or its place on the lists. -/
theorem Queues.change (hq : Queues c s Q D) (hl : Links t Q' D') (hlt : f < c.maxclick)
    (hother : ∀ g, g ≠ f → qview (t.pfd g) = qview (s.pfd g))
    (hQ : ∀ g, g ≠ f → (g ∈ Q' ↔ g ∈ Q)) (hD : ∀ g, g ≠ f → g ∈ D' → g ∈ D)
    (hf : f ∈ Q' ↔ (t.pfd f).queue = true) (huse : f ∈ Q' ∨ f ∈ D' → (t.pfd f).pf_use = 0) :
    Queues c t Q' D' := by
  have hqueue : ∀ g, g ≠ f → (t.pfd g).queue = (s.pfd g).queue := fun g hg =>
    congrArg Prod.fst (hother g hg)
  have huses : ∀ g, g ≠ f → (t.pfd g).pf_use = (s.pfd g).pf_use := fun g hg =>
    congrArg Prod.snd (hother g hg)
  have hmem : ∀ g, g ∈ Q' ↔ (t.pfd g).queue = true := by
    intro g
    by_cases hg : g = f
    · rw [hg]
      exact hf
    · rw [hQ g hg, hqueue g hg]
      exact hq.mem g
  refine
    { toLinks := hl
      mem := hmem
      notMem := fun g hg => ?_
      idle := fun g hg => ?_
      known := fun g hg => ?_ }
  · refine Bool.eq_false_iff.mpr fun h1 => ?_
    exact hl.disjoint g ((hmem g).mpr h1) hg
  · by_cases hgf : g = f
    · rw [hgf] at hg ⊢
      exact huse hg
    · rw [huses g hgf]
      exact hq.idle g (hg.imp (hQ g hgf).mp (hD g hgf))
  · by_cases hgf : g = f
    · rwa [hgf]
    · rw [huses g hgf] at hg
      exact hq.known g (hg.imp (hQ g hgf).mp (Or.imp_left (hD g hgf)))

/-- A link of a frame on no list does not matter. -/
theorem Links.congr_of_notMem (hl : Links s Q D) (hf : f ∉ Q) (hd : f ∉ D)
    (hn : ∀ y, y ≠ .pfd f → t.next y = s.next y) (hp : ∀ y, y ≠ .pfd f → t.prev y = s.prev y) :
    Links t Q D := by
  have h1 : ∀ y ∈ Pfp.phead :: Q.map .pfd, y ≠ .pfd f := by
    rintro y hy rfl
    simp [hf] at hy
  have h2 : ∀ y ∈ Pfp.delmem :: D.map .pfd, y ≠ .pfd f := by
    rintro y hy rfl
    simp [hd] at hy
  exact
    { circ := hl.circ.congr (fun y hy => hn y (h1 y hy)) fun y hy => hp y (h1 y hy)
      deleted := hl.deleted_congr (fun y hy => hn y (h2 y hy)) fun y hy => hp y (h2 y hy)
      disjoint := hl.disjoint }

/-- The frame behind the first one of the queue. -/
theorem Links.next_head {l : List ℕ} (hl : Links s (f :: l) D) :
    s.next (.pfd f) = some ((l.map Pfp.pfd).headD .phead) :=
  hl.circ.fwd.2.head

theorem seize_spec (hc : Chains c s C) (hq : Queues c s Q D) (hf : f ∈ Q) :
    ∃ x t Q' C', s.seize c f = some (x, t) ∧ Chains c t C' ∧ Queues c t Q' D ∧
      Q'.Perm (Q.erase f) ∧ Same s t ∧ (∀ g, g ≠ f → qview (t.pfd g) = qview (s.pfd g)) ∧
      ∀ l, Q = f :: l → Q' = l ∧ x = (l.map Pfp.pfd).headD .phead := by
  obtain ⟨u, Q₁, C₁, hu, hd⟩ := unhash_spec hc hq f
  have hf₁ : f ∈ Q₁ := hd.perm.mem_iff.mpr hf
  obtain ⟨p, n, -, hn, -, -⟩ := hd.queues.toLinks.around hf₁
  obtain ⟨v, hv, hrel, hlv, -⟩ := hd.queues.toLinks.unlink hf₁
  have hperm : (Q₁.erase f).Perm (Q.erase f) := hd.perm.erase f
  have hfe : f ∉ Q₁.erase f := fun hm => (hd.queues.nodup.mem_erase_iff.mp hm).1 rfl
  have hfd : f ∉ D := hq.disjoint f hf
  unfold seize
  rw [hu, bind_some, hn, bind_some, hv]
  obtain ⟨w, hw⟩ : ∃ w : Pages, w = { v with
      next := update v.next (.pfd f) none
      prev := update v.prev (.pfd f) none } := ⟨_, rfl⟩
  dsimp only [map_some]
  rw [← hw]
  have hwpfd : w.pfd = u.pfd := by rw [hw, ← hrel.pfd]
  obtain ⟨upd, hupd⟩ : ∃ upd : Pfdat → Pfdat, upd = fun x => { x with
      pf_blkno := 0, pf_use := 1, pf_rawcnt := 0, queue := false, bad := false, hash := false,
      done := false, swap := false, waiting := false } := ⟨_, rfl⟩
  rw [← hupd]
  have hself : (w.setPfd f upd).pfd f = upd (w.pfd f) := setPfd_self
  have hother : ∀ g, g ≠ f → (w.setPfd f upd).pfd g = u.pfd g := fun g hg => by
    rw [setPfd_of_ne hg, hwpfd]
  have hlw : Links (w.setPfd f upd) (Q₁.erase f) D := by
    refine hlv.congr_of_notMem hfe hfd (fun y hy => ?_) fun y hy => ?_
    · rw [hw]
      exact update_of_ne hy _ _
    · rw [hw]
      exact update_of_ne hy _ _
  have hne : ∀ g ∈ Q₁.erase f, g ≠ f := fun g hg he => hfe (he ▸ hg)
  refine ⟨n, _, Q₁.erase f, C₁, rfl, ?_, ?_, hperm, ?_, fun g hg => ?_, fun l he => ?_⟩
  · refine hd.chains.congr ?_ (fun g => ?_) fun g hg => ?_
    · show w.phash = u.phash
      rw [hw, ← hrel.phash]
    · by_cases hgf : g = f
      · rw [hgf, hself, hd.hash, hupd]
      · rw [hother g hgf]
    · have hgf : g ≠ f := by
        rintro rfl
        rw [hd.hash] at hg
        cases hg
      rw [hother g hgf]
  · refine hd.queues.change hlw (hq.known f (Or.inl hf)) (fun g hg => by rw [hother g hg])
      (fun g hg => ?_) (fun _ _ hg => hg) ?_ fun hm => (hm.elim hfe hfd).elim
    · rw [hd.queues.nodup.mem_erase_iff, and_iff_right hg]
    · rw [hself, hupd]
      simp [hfe]
  · have h1 : Same v w := by
      rw [hw]
      rfl
    exact ((hd.same.trans hrel.same).trans h1).trans rfl
  · rw [hother g hg]
    exact hd.view g
  · have h1 := hd.head l he
    rw [he] at h1
    have hlu := hd.queues.toLinks
    rw [h1] at hlu
    rw [hlu.next_head] at hn
    cases hn
    rw [h1, erase_cons_head]
    exact ⟨rfl, rfl⟩

/-! ## Giving frames back -/

/-- The lists after some steps that have put on the queue as many frames as `freemem` says, and
have not touched the list of deleted frames. -/
structure Kept (c : PageConf) (s t : Pages) (Q Q' D : List ℕ) (C' : ℕ → List ℕ) : Prop where
  chains : Chains c t C'
  queues : Queues c t Q' D
  free : t.freemem - Q'.length = s.freemem - Q.length
  cnt : t.delmemCnt = s.delmemCnt

theorem Kept.trans {u : Pages} {Q'' : List ℕ} {C'' : ℕ → List ℕ} (h1 : Kept c s t Q Q' D C')
    (h2 : Kept c t u Q' Q'' D C'') : Kept c s u Q Q'' D C'' :=
  ⟨h2.chains, h2.queues, h2.free.trans h1.free, h2.cnt.trans h1.cnt⟩

theorem Detached.kept (h : Detached c s t f Q Q' D C') : Kept c s t Q Q' D C' := by
  have hs : t = _ := h.same
  refine ⟨h.chains, h.queues, ?_, by rw [hs]⟩
  rw [h.perm.length_eq, hs]

/-- Changes of page tables, descriptors and regions. -/
theorem Kept.congr {u : Pages} (h : Kept c s t Q Q' D C') (hpfd : u.pfd = t.pfd)
    (hn : u.next = t.next) (hp : u.prev = t.prev) (hph : u.phash = t.phash)
    (hf : u.freemem = t.freemem) (hd : u.delmemCnt = t.delmemCnt) : Kept c s u Q Q' D C' :=
  ⟨h.chains.congr hph (fun f => by rw [hpfd]) fun f _ => by rw [hpfd],
    h.queues.congr hn hp fun f => by rw [hpfd], by rw [hf]; exact h.free, by rw [hd]; exact h.cnt⟩

theorem Kept.refl (hc : Chains c s C) (hq : Queues c s Q D) : Kept c s s Q Q D C :=
  ⟨hc, hq, rfl, rfl⟩

/-- A frame in use is on no list. -/
theorem Queues.notMem_of_use (hq : Queues c s Q D) (hf : 0 < (s.pfd f).pf_use) :
    f ∉ Q ∧ f ∉ D := by
  constructor
  · intro hm
    have h1 := hq.idle f (Or.inl hm)
    omega
  · intro hm
    have h1 := hq.idle f (Or.inr hm)
    omega

/-- A frame that was in use is put on the queue. -/
theorem Queues.put (hq : Queues c s Q D) (hf : 0 < (s.pfd f).pf_use) (hl : Links t Q' D)
    (hperm : Q'.Perm (f :: Q)) (hself : qview (t.pfd f) = (true, 0))
    (hother : ∀ g, g ≠ f → qview (t.pfd g) = qview (s.pfd g)) : Queues c t Q' D := by
  refine hq.change hl (hq.known f (Or.inr (Or.inr hf))) hother (fun g hg => ?_) (fun _ _ hg => hg)
    ?_ fun _ => congrArg Prod.snd hself
  · rw [hperm.mem_iff, mem_cons, or_iff_right hg]
  · exact iff_of_true (hperm.mem_iff.mpr mem_cons_self) (congrArg Prod.fst hself)

/-- One use of a frame ends, but not the last one. -/
theorem Queues.use (hq : Queues c s Q D) (hf : 0 < (s.pfd f).pf_use) {u : Pfdat → Pfdat}
    (hu : (u (s.pfd f)).queue = (s.pfd f).queue) : Queues c (s.setPfd f u) Q D := by
  obtain ⟨hfq, hfd⟩ := hq.notMem_of_use hf
  refine hq.change ⟨hq.circ, hq.deleted, hq.disjoint⟩ (hq.known f (Or.inr (Or.inr hf)))
    (fun g hg => by rw [setPfd_of_ne hg]) (fun _ _ => Iff.rfl) (fun _ _ hg => hg) ?_
    fun hm => (hm.elim hfq hfd).elim
  rw [setPfd_self, hu]
  exact hq.mem f

/-- The last use of a frame ends and it is put on the queue, at either end. -/
theorem Kept.put (hc : Chains c s C) (hq : Queues c s Q D) (hf : 0 < (s.pfd f).pf_use)
    (h1 : (s.pfd f).pf_use - 1 = 0) {u v : Pages}
    (hu : u = s.setPfd f fun x => { x with pf_use := x.pf_use - 1 })
    (hrel : Relinked u v) (hl : Links v Q' D) (hperm : Q'.Perm (f :: Q)) :
    Kept c s { v.setPfd f fun x => { x with queue := true } with freemem := v.freemem + 1 }
      Q Q' D C := by
  have hself : (v.pfd f) = { s.pfd f with pf_use := (s.pfd f).pf_use - 1 } := by
    rw [hrel.pfd, hu, setPfd_self]
  have hother : ∀ g, g ≠ f → v.pfd g = s.pfd g := fun g hg => by
    rw [hrel.pfd, hu, setPfd_of_ne hg]
  have hview : ∀ g, hview ((v.setPfd f fun x => { x with queue := true }).pfd g) =
      hview (s.pfd g) := by
    intro g
    refine (setPfd_view hview rfl g).trans ?_
    rw [hrel.pfd, hu]
    exact setPfd_view hview rfl g
  refine ⟨hc.congr ?_ (fun g => congrArg (fun w => w.1.1) (hview g)) fun g _ => hview g,
    hq.put hf (t := { v.setPfd f fun x => { x with queue := true } with
      freemem := v.freemem + 1 }) ⟨hl.circ, hl.deleted, hl.disjoint⟩ hperm ?_ fun g hg => ?_,
    ?_, ?_⟩
  · show v.phash = s.phash
    rw [hrel.phash, hu]
    rfl
  · show qview ((v.setPfd f fun x => { x with queue := true }).pfd f) = _
    rw [setPfd_self, hself]
    show (true, (s.pfd f).pf_use - 1) = (true, 0)
    rw [h1]
  · show qview ((v.setPfd f fun x => { x with queue := true }).pfd g) = _
    rw [setPfd_of_ne hg, hother g hg]
  · have hfm : v.freemem = s.freemem := by
      have hr : v = _ := hrel
      rw [hr, hu]
      rfl
    show v.freemem + 1 - _ = _
    rw [hfm, hperm.length_eq, length_cons]
    omega
  · show v.delmemCnt = s.delmemCnt
    have hr : v = _ := hrel
    rw [hr, hu]
    rfl

theorem release_spec (hc : Chains c s C) (hq : Queues c s Q D) (hf : 0 < (s.pfd f).pf_use) :
    ∃ t Q', s.release f = some t ∧ Kept c s t Q Q' D C := by
  obtain ⟨hfq, hfd⟩ := hq.notMem_of_use hf
  obtain ⟨u, hu⟩ : ∃ u, u = s.setPfd f fun x => { x with pf_use := x.pf_use - 1 } := ⟨_, rfl⟩
  have huse : (u.pfd f).pf_use = (s.pfd f).pf_use - 1 := by rw [hu, setPfd_self]
  have hlu : Links u Q D := by
    rw [hu]
    exact ⟨hq.circ, hq.deleted, hq.disjoint⟩
  unfold release
  dsimp only
  rw [← hu]
  by_cases h1 : (u.pfd f).pf_use = 0
  · obtain ⟨v, hv, hrel, hlv⟩ := hlu.atTail hfq hfd
    rw [if_pos h1, hv]
    refine ⟨_, Q ++ [f], rfl, Kept.put hc hq hf (by omega) hu hrel hlv ?_⟩
    exact perm_append_singleton f Q
  · rw [if_neg h1]
    refine ⟨u, Q, rfl, ?_, ?_, ?_, ?_⟩
    · rw [hu]
      exact hc.congr rfl (fun g => setPfd_view Pfdat.hash rfl g)
        fun g _ => setPfd_view hview rfl g
    · rw [hu]
      exact hq.use hf rfl
    · rw [hu]
      rfl
    · rw [hu]
      rfl

theorem pfreeFrame_spec {rp : Option ℕ} {pde : Pde} (hc : Chains c s C) (hq : Queues c s Q D)
    (ht : s.pfreeFrame c rp pde = some t) : ∃ Q', Kept c s t Q Q' D C := by
  unfold pfreeFrame at ht
  by_cases hv : pde.valid = true
  case neg =>
    rw [if_neg hv] at ht
    cases ht
    exact ⟨Q, Kept.refl hc hq⟩
  rw [if_pos hv] at ht
  dsimp only at ht
  obtain ⟨⟨hf, -, -, -⟩, ht⟩ := ite_none_right_eq_some.mp ht
  obtain ⟨w, hw, ht⟩ := map_eq_some_iff.mp ht
  obtain ⟨hfq, hfd⟩ := hq.notMem_of_use hf
  obtain ⟨u, hu⟩ : ∃ u, u = s.setPfd pde.pfn fun x => { x with pf_use := x.pf_use - 1 } :=
    ⟨_, rfl⟩
  rw [← hu] at hw
  have hlu : Links u Q D := by
    rw [hu]
    exact ⟨hq.circ, hq.deleted, hq.disjoint⟩
  -- the count of valid pages of the region is not part of the lists
  have hnv : ∀ Q', Kept c s w Q Q' D C → Kept c s t Q Q' D C := by
    intro Q' h
    subst ht
    cases rp with
    | none => exact h
    | some r => exact h.congr rfl rfl rfl rfl rfl rfl
  by_cases h1 : (s.pfd pde.pfn).pf_use - 1 = 0
  case neg =>
    rw [if_neg h1] at hw
    cases hw
    refine ⟨Q, hnv Q ⟨?_, ?_, ?_, ?_⟩⟩
    · rw [hu]
      exact hc.congr rfl (fun g => setPfd_view Pfdat.hash rfl g)
        fun g _ => setPfd_view hview rfl g
    · rw [hu]
      exact hq.use hf rfl
    · rw [hu]
      rfl
    · rw [hu]
      rfl
  rw [if_pos h1] at hw
  obtain ⟨v, hv, rfl⟩ := map_eq_some_iff.mp hw
  split at hv
  · obtain ⟨-, hv⟩ := ite_none_right_eq_some.mp hv
    obtain ⟨v', hv', hrel, hlv⟩ := hlu.atTail hfq hfd
    rw [hv] at hv'
    cases hv'
    exact ⟨_, hnv _ (Kept.put hc hq hf h1 hu hrel hlv (perm_append_singleton _ Q))⟩
  · obtain ⟨v', hv', hrel, hlv, -⟩ := hlu.atHead hfq hfd
    rw [hv] at hv'
    cases hv'
    exact ⟨_, hnv _ (Kept.put hc hq hf h1 hu hrel hlv (List.Perm.refl _))⟩

theorem pbremove_kept {rp r : ℕ} {d : DiskDesc} (hc : Chains c s C) (hq : Queues c s Q D)
    (ht : s.pbremove c rp d = some (r, t)) : ∃ Q' C', Kept c s t Q Q' D C' := by
  cases hk : s.key c rp d with
  | none =>
    unfold pbremove at ht
    rw [hk] at ht
    cases ht
  | some ks =>
    obtain ⟨k, shift⟩ := ks
    rcases pbremove_spec hc hq hk with h0 | ⟨f, u, Q', C', h1, hd⟩
    · rw [h0] at ht
      cases ht
      exact ⟨Q, C, Kept.refl hc hq⟩
    · rw [h1] at ht
      cases ht
      exact ⟨Q', C', hd.kept⟩

theorem pfreeSwap_spec {rp : Option ℕ} {pt : ℕ} {dbd last : Bool} (hc : Chains c s C)
    (hq : Queues c s Q D) (ht : s.pfreeSwap c rp pt dbd last = some t) :
    ∃ Q' C', Kept c s t Q Q' D C' := by
  unfold pfreeSwap at ht
  cases rp with
  | none =>
    cases ht
    exact ⟨Q, C, Kept.refl hc hq⟩
  | some r =>
    dsimp only at ht
    split at ht
    · obtain ⟨⟨n, u⟩, hu, rfl⟩ := map_eq_some_iff.mp ht
      exact pbremove_kept hc hq hu
    · cases ht
      exact ⟨Q, C, Kept.refl hc hq⟩

theorem pfree_spec {rp : Option ℕ} {pt : ℕ} {dbd : Bool} {sw : ℕ → Bool} {k : ℕ}
    (hc : Chains c s C) (hq : Queues c s Q D) (ht : s.pfree c rp pt dbd sw k = some t) :
    ∃ Q' C', Kept c s t Q Q' D C' := by
  induction k generalizing s pt Q C with
  | zero =>
    cases ht
    exact ⟨Q, C, Kept.refl hc hq⟩
  | succ k ih =>
    unfold pfree at ht
    obtain ⟨u, hu, ht⟩ := bind_eq_some_iff.mp ht
    obtain ⟨v, hv, ht⟩ := bind_eq_some_iff.mp ht
    obtain ⟨Q₁, C₁, h1⟩ := pfreeSwap_spec hc hq hu
    obtain ⟨Q₂, h2⟩ := pfreeFrame_spec h1.chains h1.queues hv
    dsimp only at ht
    obtain ⟨w, hw⟩ : ∃ w, w = if dbd = true then
        { v.setPt pt ⟨0, false, false, false⟩ with
          dbd := update (v.setPt pt ⟨0, false, false, false⟩).dbd pt
            { (v.setPt pt ⟨0, false, false, false⟩).dbd pt with dbd_type := .none } }
        else v.setPt pt ⟨0, false, false, false⟩ := ⟨_, rfl⟩
    rw [← hw] at ht
    have h3 : Kept c u w Q₁ Q₂ D C₁ := by
      rw [hw]
      cases dbd with
      | false => exact h2.congr rfl rfl rfl rfl rfl rfl
      | true => exact h2.congr rfl rfl rfl rfl rfl rfl
    obtain ⟨Q', C', h4⟩ := ih h3.chains h3.queues ht
    exact ⟨Q', C', (h1.trans h3).trans h4⟩

theorem freecpagesLoop_spec {pfn k : ℕ} (hc : Chains c s C) (hq : Queues c s Q D)
    (ht : s.freecpagesLoop c pfn k = some t) : ∃ Q', Kept c s t Q Q' D C := by
  induction k generalizing s pfn Q with
  | zero =>
    cases ht
    exact ⟨Q, Kept.refl hc hq⟩
  | succ k ih =>
    unfold freecpagesLoop at ht
    obtain ⟨u, hu, ht⟩ := bind_eq_some_iff.mp ht
    obtain ⟨Q₁, h1⟩ := pfreeFrame_spec hc hq hu
    obtain ⟨Q', h2⟩ := ih h1.chains h1.queues ht
    exact ⟨Q', h1.trans h2⟩

theorem memfreeLoop_spec {l : List (ℕ × ℕ)} (hc : Chains c s C) (hq : Queues c s Q D)
    (ht : s.memfreeLoop l = some t) : ∃ Q', Kept c s t Q Q' D C := by
  induction l generalizing s Q with
  | nil =>
    cases ht
    exact ⟨Q, Kept.refl hc hq⟩
  | cons x l ih =>
    unfold memfreeLoop at ht
    dsimp only at ht
    obtain ⟨hf, ht⟩ := ite_none_right_eq_some.mp ht
    obtain ⟨u, hu, ht⟩ := bind_eq_some_iff.mp ht
    obtain ⟨w, hw⟩ : ∃ w, w = s.setPfd (s.pt x.1).pfn fun x => { x with done := true } := ⟨_, rfl⟩
    rw [← hw] at hu
    have h0 : Kept c s w Q Q D C := by
      rw [hw]
      exact ⟨hc.congr rfl (fun g => setPfd_view Pfdat.hash rfl g)
        fun g _ => setPfd_view hview rfl g, hq.congr rfl rfl fun g => setPfd_view qview rfl g,
        rfl, rfl⟩
    have hself : 0 < (w.pfd (s.pt x.1).pfn).pf_use := by
      rw [hw, setPfd_self]
      exact hf
    obtain ⟨v, Q₁, hv, h1⟩ := release_spec h0.chains h0.queues hself
    rw [hu] at hv
    cases hv
    have h2 : Kept c s (u.addNvalid x.2 (-1)) Q Q₁ D C :=
      (h0.trans h1).congr rfl rfl rfl rfl rfl rfl
    obtain ⟨Q', h3⟩ := ih h2.chains h2.queues ht
    exact ⟨Q', h2.trans h3⟩

/-! ## Allocation -/

/-- The lists after `k` frames have been taken from the queue. -/
structure Taken (c : PageConf) (s t : Pages) (k : ℕ) (Q Q' D : List ℕ) (C' : ℕ → List ℕ) :
    Prop where
  chains : Chains c t C'
  queues : Queues c t Q' D
  len : Q'.length + k = Q.length
  same : t.freemem = s.freemem ∧ t.delmemCnt = s.delmemCnt ∧ t.availrmem = s.availrmem ∧
    t.availsmem = s.availsmem

theorem ptmemallLoop_spec {rp base k : ℕ} {validate : Bool} {pfd : Pfp} (hc : Chains c s C)
    (hq : Queues c s Q D) (hpfd : pfd = (Q.map Pfp.pfd).headD .phead)
    (ht : s.ptmemallLoop c rp validate base pfd k = some t) :
    ∃ Q' C', Taken c s t k Q Q' D C' := by
  induction k generalizing s base pfd Q C with
  | zero =>
    cases ht
    exact ⟨Q, C, hc, hq, rfl, rfl, rfl, rfl, rfl⟩
  | succ k ih =>
    cases Q with
    | nil =>
      rw [hpfd] at ht
      cases ht
    | cons f l =>
      rw [hpfd] at ht
      unfold ptmemallLoop at ht
      obtain ⟨-, ht⟩ := ite_none_right_eq_some.mp ht
      obtain ⟨⟨n, u⟩, hu, ht⟩ := bind_eq_some_iff.mp ht
      obtain ⟨x, v, Q₁, C₁, hv, hcv, hqv, -, hsame, -, hhead⟩ :=
        seize_spec hc hq (mem_cons_self)
      rw [hu] at hv
      cases hv
      obtain ⟨rfl, rfl⟩ := hhead l rfl
      dsimp only at ht
      obtain ⟨w, hw⟩ : ∃ w, w = (u.addNvalid rp 1).setPt base
        { u.pt base with pfn := f, mod := false, valid := validate } := ⟨_, rfl⟩
      rw [← hw] at ht
      have hcw : Chains c w C₁ := by
        rw [hw]
        exact hcv.congr rfl (fun _ => rfl) fun _ _ => rfl
      have hqw : Queues c w Q₁ D := by
        rw [hw]
        exact hqv.congr rfl rfl fun _ => rfl
      obtain ⟨Q', C', h⟩ := ih hcw hqw rfl ht
      have hs : u = _ := hsame
      have h1 : w.freemem = s.freemem ∧ w.delmemCnt = s.delmemCnt ∧ w.availrmem = s.availrmem ∧
          w.availsmem = s.availsmem := by
        rw [hw, hs]
        exact ⟨rfl, rfl, rfl, rfl⟩
      have hlen := h.len
      refine ⟨Q', C', h.chains, h.queues, ?_, h.same.1.trans h1.1, h.same.2.1.trans h1.2.1,
        h.same.2.2.1.trans h1.2.2.1, h.same.2.2.2.trans h1.2.2.2⟩
      rw [length_cons]
      omega

/-- The frames passed by the inner loop of `contmemall` are on the queue. -/
theorem contRow_spec {pfd1 k : ℕ} {npgs : ℤ} (h1 : pfd1 ≤ g)
    (h2 : g < (s.contRow pfd1 npgs k).1) : (s.pfd g).queue = true := by
  induction k generalizing pfd1 npgs with
  | zero => exact absurd h2 (Nat.not_lt.mpr h1)
  | succ k ih =>
    unfold contRow at h2
    split at h2
    · by_cases hqu : (s.pfd pfd1).queue = true
      · rw [if_pos hqu] at h2
        by_cases he : g = pfd1
        · rw [he]
          exact hqu
        · exact ih (by omega) h2
      · rw [if_neg hqu] at h2
        exact absurd h2 (Nat.not_lt.mpr h1)
    · exact absurd h2 (Nat.not_lt.mpr h1)

theorem le_contRow {pfd1 k : ℕ} {npgs : ℤ} : pfd1 ≤ (s.contRow pfd1 npgs k).1 := by
  induction k generalizing pfd1 npgs with
  | zero => exact Nat.le_refl _
  | succ k ih =>
    unfold contRow
    split
    · split
      · exact Nat.le_of_succ_le ih
      · exact Nat.le_refl _
    · exact Nat.le_refl _

theorem contScan_lt {top pfd k p p1 : ℕ} {npgs : ℤ}
    (h : s.contScan top npgs pfd k = some (p, p1)) : p < p1 := by
  induction k generalizing pfd with
  | zero => cases h
  | succ k ih =>
    unfold contScan at h
    obtain ⟨-, h⟩ := ite_none_right_eq_some.mp h
    split at h
    · dsimp only at h
      split at h
      · cases h
        exact le_contRow
      · exact ih h
    · exact ih h

theorem contScan_spec {top pfd k p p1 : ℕ} {npgs : ℤ}
    (h : s.contScan top npgs pfd k = some (p, p1)) (h1 : p ≤ g) (h2 : g < p1) :
    (s.pfd g).queue = true := by
  induction k generalizing pfd with
  | zero => cases h
  | succ k ih =>
    unfold contScan at h
    obtain ⟨-, h⟩ := ite_none_right_eq_some.mp h
    split_ifs at h with hqu
    · dsimp only at h
      split at h
      · cases h
        by_cases he : g = p
        · rw [he]
          exact hqu
        · exact contRow_spec (by omega) h2
      · exact ih h
    · exact ih h

theorem contTake_spec {pfd k : ℕ} (hc : Chains c s C) (hq : Queues c s Q D)
    (hrow : ∀ g, pfd ≤ g → g < pfd + k → g ∈ Q) :
    ∃ t Q' C', s.contTake c pfd k = some t ∧ Taken c s t k Q Q' D C' := by
  induction k generalizing s Q C with
  | zero => exact ⟨s, Q, C, rfl, hc, hq, rfl, rfl, rfl, rfl, rfl⟩
  | succ k ih =>
    have hf : pfd + k ∈ Q := hrow _ (by omega) (by omega)
    obtain ⟨x, u, Q₁, C₁, hu, hcu, hqu, hperm, hsame, -, -⟩ := seize_spec hc hq hf
    obtain ⟨t, Q', C', ht, h⟩ := ih hcu hqu fun g h1 h2 => by
      rw [hperm.mem_iff, hq.nodup.mem_erase_iff]
      exact ⟨by omega, hrow g h1 (by omega)⟩
    have hs : u = _ := hsame
    have h1 : u.freemem = s.freemem ∧ u.delmemCnt = s.delmemCnt ∧ u.availrmem = s.availrmem ∧
        u.availsmem = s.availsmem := by
      rw [hs]
      exact ⟨rfl, rfl, rfl, rfl⟩
    have hlen := h.len
    rw [hperm.length_eq, length_erase_of_mem hf] at hlen
    have hpos := length_pos_of_mem hf
    refine ⟨t, Q', C', ?_, h.chains, h.queues, by omega, h.same.1.trans h1.1,
      h.same.2.1.trans h1.2.1, h.same.2.2.1.trans h1.2.2.1, h.same.2.2.2.trans h1.2.2.2⟩
    unfold contTake
    rw [hu]
    exact ht

/-! ## Deleted memory -/

/-- The first frame of the queue becomes the first deleted one. -/
theorem Links.delete {l : List ℕ} (hl : Links s (f :: l) D)
    (hdel : Circ s.next s.prev .delmem (D.map .pfd)) (hn : s.next (.pfd f) = some x) :
    ∃ t, Pages.atHead { s with
        prev := update s.prev x (some .phead)
        next := update s.next .phead (some x) } .delmem (.pfd f) = some t ∧
      Relinked s t ∧ Links t l (f :: D) ∧ Circ t.next t.prev .delmem ((f :: D).map .pfd) := by
  obtain ⟨k, hk, hq, hd⟩ := Circ.move hl.circ hdel (fun y hy hy' => hl.ne_cell hy' hy rfl) hn rfl rfl
  unfold Pages.atHead
  dsimp only
  rw [hk]
  refine ⟨_, rfl, rfl, ⟨hq, .inr hd, fun g hg hm => ?_⟩, hd⟩
  rcases mem_cons.mp hm with rfl | hm
  · exact (nodup_cons.mp hl.nodup).1 hg
  · exact hl.disjoint g (mem_cons_of_mem _ hg) hm

/-- The first deleted frame becomes the first one of the queue. -/
theorem Links.undelete {l : List ℕ} (hl : Links s Q (f :: l))
    (hdel : Circ s.next s.prev .delmem ((f :: l).map .pfd)) (hn : s.next (.pfd f) = some x) :
    ∃ t, Pages.atHead { s with
        next := update s.next .delmem (some x)
        prev := update s.prev x (some .delmem) } .phead (.pfd f) = some t ∧
      Relinked s t ∧ Links t (f :: Q) l ∧ Circ t.next t.prev .delmem (l.map .pfd) := by
  obtain ⟨k, hk, hd, hq⟩ := Circ.move hdel hl.circ (fun y hy hy' => hl.ne_cell hy hy' rfl) hn rfl rfl
  unfold Pages.atHead
  dsimp only
  rw [hk]
  refine ⟨_, rfl, rfl, ⟨hq, .inr hd, fun g hg hm => ?_⟩, hd⟩
  rcases mem_cons.mp hg with rfl | hg
  · have := hdel.nodup
    simp [hm] at this
  · exact hl.disjoint g hg (mem_cons_of_mem _ hm)

theorem delmemLoop_spec {k : ℕ} (hc : Chains c s C) (hq : Queues c s Q D)
    (hdel : Circ s.next s.prev .delmem (D.map .pfd)) (ht : s.delmemLoop c k = some t) :
    ∃ Q' D' C', Chains c t C' ∧ Queues c t Q' D' ∧ Q'.length + k = Q.length ∧
      D'.length = D.length + k ∧ t.freemem = s.freemem ∧ t.delmemCnt = s.delmemCnt := by
  induction k generalizing s Q D C with
  | zero =>
    cases ht
    exact ⟨Q, D, C, hc, hq, rfl, rfl, rfl, rfl⟩
  | succ k ih =>
    unfold delmemLoop at ht
    have hhead := hq.circ.fwd.head
    cases Q with
    | nil =>
      rw [hhead] at ht
      cases ht
    | cons f l =>
      rw [hhead] at ht
      dsimp only [map_cons, headD_cons] at ht
      obtain ⟨-, ht⟩ := ite_none_right_eq_some.mp ht
      obtain ⟨u, hu, ht⟩ := bind_eq_some_iff.mp ht
      obtain ⟨x, hx, ht⟩ := bind_eq_some_iff.mp ht
      obtain ⟨v, hv, ht⟩ := bind_eq_some_iff.mp ht
      obtain ⟨u', Q₁, C₁, hu', hd⟩ := unhash_spec hc hq f
      rw [hu] at hu'
      cases hu'
      obtain rfl : Q₁ = f :: l := hd.head l rfl
      have hdelu : Circ u.next u.prev .delmem (D.map .pfd) := by
        rcases hd.queues.deleted with ⟨h1, -⟩ | h1
        · rw [hd.delmem, hdel.fwd.head] at h1
          cases h1
        · exact h1
      obtain ⟨w, hw, hrel, hlw, hcw⟩ := hd.queues.toLinks.delete hdelu hx
      rw [hv] at hw
      cases hw
      obtain ⟨y, hy⟩ : ∃ y, y = v.setPfd f fun x => { x with queue := false } := ⟨_, rfl⟩
      rw [← hy] at ht
      have hpfd : v.pfd = u.pfd := hrel.pfd
      have hqy : Queues c y l (f :: D) := by
        have hfl := (nodup_cons.mp hq.nodup).1
        have hly : Links y l (f :: D) := by
          rw [hy]
          exact ⟨hlw.circ, hlw.deleted, hlw.disjoint⟩
        refine hd.queues.change (f := f) hly (hq.known f (Or.inl mem_cons_self)) (fun g hg => ?_)
          (fun g hg => ?_) (fun g hg hm => (mem_cons.mp hm).resolve_left hg) ?_ fun _ => ?_
        · rw [hy, setPfd_of_ne hg, hpfd]
        · rw [mem_cons, or_iff_right hg]
        · rw [hy, setPfd_self]
          simp [hfl]
        · rw [hy, setPfd_self, hpfd]
          exact hd.queues.idle f (Or.inl mem_cons_self)
      have hcy : Chains c y C₁ := by
        refine hd.chains.congr ?_ (fun g => ?_) fun g _ => ?_
        · rw [hy]
          exact hrel.phash
        · rw [hy, ← hpfd]
          exact setPfd_view Pfdat.hash rfl g
        · rw [hy, ← hpfd]
          exact setPfd_view hview rfl g
      have hdy : Circ y.next y.prev .delmem ((f :: D).map .pfd) := by
        rw [hy]
        exact hcw
      obtain ⟨Q', D', C', hct, hqt, hlq, hld, hfm, hdc⟩ := ih hcy hqy hdy ht
      have hs : u = _ := hd.same
      have hr : v = _ := hrel
      have h1 : y.freemem = s.freemem ∧ y.delmemCnt = s.delmemCnt := by
        rw [hy, hr, hs]
        exact ⟨rfl, rfl⟩
      rw [length_cons] at hld
      refine ⟨Q', D', C', hct, hqt, ?_, by omega, hfm.trans h1.1, hdc.trans h1.2⟩
      rw [length_cons]
      omega

theorem addmemStep_spec {l : List ℕ} (hc : Chains c s C) (hq : Queues c s Q (f :: l))
    (hdel : Circ s.next s.prev .delmem ((f :: l).map .pfd)) :
    ∃ t, s.addmemStep = some t ∧ Chains c t C ∧ Queues c t (f :: Q) l ∧
      Circ t.next t.prev .delmem (l.map .pfd) ∧ t.freemem = s.freemem ∧
      t.delmemCnt = s.delmemCnt := by
  have hhead : s.next .delmem = some (.pfd f) := hdel.fwd.head
  have hn : s.next (.pfd f) = some ((l.map Pfp.pfd).headD .delmem) := hdel.fwd.2.head
  obtain ⟨v, hv, hrel, hlv, hcv⟩ := hq.toLinks.undelete hdel hn
  have hpfd : v.pfd = s.pfd := hrel.pfd
  have hr : v = _ := hrel
  unfold addmemStep
  rw [hhead, bind_some]
  dsimp only
  rw [hn, bind_some, hv]
  refine ⟨_, rfl, ?_, ?_, hcv, ?_, ?_⟩
  · refine hc.congr hrel.phash (fun g => ?_) fun g _ => ?_
    · rw [← hpfd]
      exact setPfd_view Pfdat.hash rfl g
    · rw [← hpfd]
      exact setPfd_view hview rfl g
  · refine hq.change (f := f) ⟨hlv.circ, hlv.deleted, hlv.disjoint⟩
      (hq.known f (Or.inr (Or.inl mem_cons_self))) (fun g hg => ?_) (fun g hg => ?_)
      (fun g _ => mem_cons_of_mem f) ?_ fun _ => ?_
    · show qview ((v.setPfd f _).pfd g) = _
      rw [setPfd_of_ne hg, hpfd]
    · rw [mem_cons, or_iff_right hg]
    · show _ ↔ ((v.setPfd f fun x => { x with queue := true }).pfd f).queue = true
      rw [setPfd_self]
      simp
    · show ((v.setPfd f _).pfd f).pf_use = 0
      rw [setPfd_self, hpfd]
      exact hq.idle f (Or.inr mem_cons_self)
  · rw [hr]
    rfl
  · rw [hr]
    rfl

theorem addmemLoop_spec {k : ℕ} (hc : Chains c s C) (hq : Queues c s Q D) (hk : k ≤ D.length) :
    ∃ t Q' D', s.addmemLoop k = some t ∧ Chains c t C ∧ Queues c t Q' D' ∧
      Q'.length = Q.length + k ∧ D'.length + k = D.length ∧ t.freemem = s.freemem ∧
      t.delmemCnt = s.delmemCnt := by
  induction k generalizing s Q D with
  | zero => exact ⟨s, Q, D, rfl, hc, hq, rfl, rfl, rfl, rfl⟩
  | succ k ih =>
    cases D with
    | nil => simp at hk
    | cons f l =>
      have hdel : Circ s.next s.prev .delmem ((f :: l).map .pfd) := by
        rcases hq.deleted with ⟨-, h1⟩ | h1
        · cases h1
        · exact h1
      obtain ⟨u, hu, hcu, hqu, -, hfu, hdu⟩ := addmemStep_spec hc hq hdel
      rw [length_cons] at hk
      obtain ⟨t, Q', D', ht, hct, hqt, hlq, hld, hft, hdt⟩ := ih hcu hqu (by omega)
      rw [length_cons] at hlq
      refine ⟨t, Q', D', ?_, hct, hqt, by omega, ?_, hft.trans hfu, hdt.trans hdu⟩
      · unfold addmemLoop
        rw [hu]
        exact ht
      · rw [length_cons]
        omega

/-! ## The invariant -/

/-- The lists of frames, and their counts. -/
structure Lists (c : PageConf) (s : Pages) (Q D : List ℕ) (C : ℕ → List ℕ) : Prop where
  queues : Queues c s Q D
  chains : Chains c s C
  free : s.freemem = Q.length
  deleted : s.delmemCnt = D.length

theorem Lists.kept (h : Lists c s Q D C) (hk : Kept c s t Q Q' D C') : Lists c t Q' D C' := by
  refine ⟨hk.queues, hk.chains, ?_, hk.cnt.trans h.deleted⟩
  have h1 := hk.free
  rw [h.free] at h1
  omega

/-- There are no more free frames than frames. -/
theorem Queues.length_le (hq : Queues c s Q D) : Q.length ≤ c.maxclick := by
  have hsub : Q ⊆ List.range c.maxclick := fun f hf =>
    mem_range.mpr (hq.known f (Or.inl hf))
  have hlen := (subperm_of_subset hq.nodup hsub).length_le
  rwa [length_range] at hlen

theorem ptmemall_lists {rp base r : ℕ} {size : ℤ} {validate slept : Bool} (h : Lists c s Q D C)
    (ht : s.ptmemall c rp base size validate slept = some (r, t)) :
    ∃ Q' C', Lists c t Q' D C' := by
  unfold ptmemall at ht
  obtain ⟨⟨hpos, hle⟩, ht⟩ := ite_none_right_eq_some.mp ht
  split_ifs at ht
  · cases ht
    exact ⟨Q, C, h⟩
  dsimp only at ht
  rw [h.queues.circ.fwd.head, bind_some] at ht
  obtain ⟨u, hu, he⟩ := map_eq_some_iff.mp ht
  cases he
  obtain ⟨w, hw⟩ : ∃ w, w = { s with freemem := s.freemem - size } := ⟨_, rfl⟩
  rw [← hw] at hu
  have hcw : Chains c w C := by
    rw [hw]
    exact h.chains.congr rfl (fun _ => rfl) fun _ _ => rfl
  have hqw : Queues c w Q D := by
    rw [hw]
    exact h.queues.congr rfl rfl fun _ => rfl
  obtain ⟨Q', C', hk⟩ := ptmemallLoop_spec hcw hqw rfl hu
  have h1 := hk.len
  have h2 : w.freemem = s.freemem - size := by rw [hw]
  have h3 : w.delmemCnt = s.delmemCnt := by rw [hw]
  refine ⟨Q', C', hk.queues, hk.chains, ?_, hk.same.2.1.trans (h3.trans h.deleted)⟩
  rw [hk.same.1, h2, h.free]
  omega

theorem contmemall_lists {npgs : ℤ} {r : Option ℕ} (h : Lists c s Q D C)
    (ht : s.contmemall c npgs = some (r, t)) : ∃ Q' C', Lists c t Q' D C' := by
  unfold contmemall at ht
  split at ht
  · cases ht
    exact ⟨Q, C, h⟩
  split at ht
  · cases ht
    exact ⟨Q, C, h⟩
  split at ht
  · cases ht
    exact ⟨Q, C, h⟩
  cases hscan : s.contScan c.maxclick npgs c.kpbase (c.maxclick - c.kpbase) with
  | none =>
    rw [hscan] at ht
    cases ht
    exact ⟨Q, C, h⟩
  | some pp =>
    obtain ⟨pfd, pfd1⟩ := pp
    rw [hscan] at ht
    dsimp only at ht
    obtain ⟨⟨-, hn⟩, ht⟩ := ite_none_right_eq_some.mp ht
    obtain ⟨u, hu, he⟩ := map_eq_some_iff.mp ht
    cases he
    obtain ⟨v, Q', C', hv, hk⟩ := contTake_spec (k := pfd1 - pfd) h.chains h.queues
      fun g (h1 : pfd ≤ g) h2 => (h.queues.mem g).mpr (contScan_spec hscan h1 (by omega))
    rw [hu] at hv
    cases hv
    refine ⟨Q', C', hk.queues.congr rfl rfl fun _ => rfl,
      hk.chains.congr rfl (fun _ => rfl) fun _ _ => rfl, ?_, hk.same.2.1.trans h.deleted⟩
    have h1 := hk.len
    have h2 : u.freemem = s.freemem := hk.same.1
    have h3 := h.free
    have h5 := contScan_lt hscan
    show u.freemem - npgs = _
    omega

theorem delmem_lists {size : BitVec 32} (h : Lists c s Q D C) (ht : s.delmem c size = some t) :
    ∃ Q' D' C', Lists c t Q' D' C' := by
  unfold delmem at ht
  obtain ⟨u, hu⟩ : ∃ u, u = if s.next .delmem = none then
      { s with
        next := update s.next .delmem (some .delmem)
        prev := update s.prev .delmem (some .delmem) }
    else s := ⟨_, rfl⟩
  -- after the first lines the list of deleted frames is there
  have h1 : Lists c u Q D C ∧ Circ u.next u.prev .delmem (D.map .pfd) := by
    split_ifs at hu with hn
    · have hD : D = [] := by
        rcases h.queues.deleted with ⟨-, h2⟩ | h2
        · exact h2
        · have h3 := h2.fwd.head
          rw [hn] at h3
          cases h3
      subst hD
      have hcirc : Circ u.next u.prev .delmem ([].map Pfp.pfd) := by
        have hn1 : u.next .delmem = some .delmem := by
          rw [hu]
          show update s.next Pfp.delmem (some .delmem) .delmem = some .delmem
          rw [update_self]
        have hp1 : u.prev .delmem = some .delmem := by
          rw [hu]
          show update s.prev Pfp.delmem (some .delmem) .delmem = some .delmem
          rw [update_self]
        exact circ_nil hn1 hp1
      have hcell : ∀ y ∈ Pfp.phead :: Q.map .pfd, y ≠ .delmem := fun y hy =>
        (h.queues.toLinks.ne_cell mem_cons_self hy).symm
      have hl : Links u Q [] := by
        refine ⟨h.queues.circ.congr (fun y hy => ?_) fun y hy => ?_, Or.inr hcirc, by simp⟩
        · rw [hu]
          exact update_of_ne (hcell y hy) _ _
        · rw [hu]
          exact update_of_ne (hcell y hy) _ _
      have hpfd : u.pfd = s.pfd := by rw [hu]
      refine ⟨⟨⟨hl, ?_, ?_, ?_, ?_⟩, h.chains.congr ?_ ?_ ?_, ?_, ?_⟩, hcirc⟩
      · rw [hpfd]
        exact h.queues.mem
      · rw [hpfd]
        exact h.queues.notMem
      · rw [hpfd]
        exact h.queues.idle
      · rw [hpfd]
        exact h.queues.known
      · rw [hu]
      · simp [hpfd]
      · simp [hpfd]
      · rw [hu]
        exact h.free
      · rw [hu]
        exact h.deleted
    · subst hu
      refine ⟨h, ?_⟩
      rcases h.queues.deleted with ⟨h2, -⟩ | h2
      · exact absurd h2 hn
      · exact h2
  rw [← hu] at ht
  obtain ⟨h2, hcirc⟩ := h1
  dsimp only at ht
  split at ht
  · cases ht
    exact ⟨Q, D, C, h2.queues.congr rfl rfl fun _ => rfl,
      h2.chains.congr rfl (fun _ => rfl) fun _ _ => rfl, h2.free, h2.deleted⟩
  · obtain ⟨w, hw⟩ : ∃ w, w = { u with
        freemem := u.freemem - size.toInt
        availrmem := u.availrmem - size.toInt
        availsmem := u.availsmem - size.toInt
        delmemCnt := u.delmemCnt + size.toInt } := ⟨_, rfl⟩
    rw [← hw] at ht
    have hcw : Chains c w C := by
      rw [hw]
      exact h2.chains.congr rfl (fun _ => rfl) fun _ _ => rfl
    have hqw : Queues c w Q D := by
      rw [hw]
      exact h2.queues.congr rfl rfl fun _ => rfl
    have hdw : Circ w.next w.prev .delmem (D.map .pfd) := by
      rw [hw]
      exact hcirc
    obtain ⟨Q', D', C', hct, hqt, hlq, hld, hfm, hdc⟩ := delmemLoop_spec hcw hqw hdw ht
    -- a negative size would take more frames than there are
    have hpos : size.toInt = size.toNat := by
      have hle := h2.queues.length_le
      have hmax := c.maxclick_le
      rw [BitVec.toInt_eq_toNat_of_lt]
      omega
    have hfw : w.freemem = u.freemem - size.toInt := by rw [hw]
    have hcw' : w.delmemCnt = u.delmemCnt + size.toInt := by rw [hw]
    refine ⟨Q', D', C', hqt, hct, ?_, ?_⟩
    · rw [hfm, hfw, h2.free]
      omega
    · rw [hdc, hcw', h2.deleted]
      omega

theorem addmem_lists {size : BitVec 32} (h : Lists c s Q D C) (hsize : 0 ≤ size.toInt)
    (ht : s.addmem size = some t) : ∃ Q' D' C', Lists c t Q' D' C' := by
  unfold addmem at ht
  dsimp only at ht
  have hpos : size.toInt = size.toNat := by
    have h1 := BitVec.toInt_eq_toNat_cond size
    have h2 := size.isLt
    split at h1 <;> omega
  split_ifs at ht
  · cases ht
    exact ⟨Q, D, C, h.queues.congr rfl rfl fun _ => rfl,
      h.chains.congr rfl (fun _ => rfl) fun _ _ => rfl, h.free, h.deleted⟩
  · obtain ⟨w, hw⟩ : ∃ w, w = { s with
        delmemCnt := s.delmemCnt - size.toInt
        freemem := s.freemem + size.toInt
        availrmem := s.availrmem + size.toInt
        availsmem := s.availsmem + size.toInt } := ⟨_, rfl⟩
    rw [← hw] at ht
    have hcw : Chains c w C := by
      rw [hw]
      exact h.chains.congr rfl (fun _ => rfl) fun _ _ => rfl
    have hqw : Queues c w Q D := by
      rw [hw]
      exact h.queues.congr rfl rfl fun _ => rfl
    have hd := h.deleted
    obtain ⟨u, Q', D', hu, hcu, hqu, hlq, hld, hfm, hdc⟩ :=
      addmemLoop_spec (k := size.toNat) hcw hqw (by omega)
    rw [ht] at hu
    cases hu
    have hfw : w.freemem = s.freemem + size.toInt := by rw [hw]
    have hcw' : w.delmemCnt = s.delmemCnt - size.toInt := by rw [hw]
    refine ⟨Q', D', C, hqu, hcu, ?_, ?_⟩
    · rw [hfm, hfw, h.free]
      omega
    · rw [hdc, hcw', h.deleted]
      omega

/-! ## `meminit` -/

theorem meminitRow_spec {pfd k : ℕ} (hq : Queues c s Q D) (hc : Chains c s fun _ => [])
    (hnew : ∀ g, pfd ≤ g → g < pfd + k → g ∉ Q ∧ g ∉ D ∧ (s.pfd g).pf_use = 0)
    (hlt : pfd + k ≤ c.maxclick) :
    ∃ t, s.meminitRow pfd k = some t ∧ Queues c t (Q ++ List.range' pfd k) D ∧
      Chains c t (fun _ => []) ∧ t.freemem = s.freemem ∧ t.delmemCnt = s.delmemCnt ∧
      ∀ g, (t.pfd g).pf_use = (s.pfd g).pf_use := by
  induction k generalizing s pfd Q with
  | zero => exact ⟨s, rfl, by simpa using hq, hc, rfl, rfl, fun g => rfl⟩
  | succ k ih =>
    obtain ⟨hfq, hfd, huse⟩ := hnew pfd (by omega) (by omega)
    obtain ⟨u, hu, hrel, hlu⟩ := hq.toLinks.atTail hfq hfd
    obtain ⟨upd, hupd⟩ : ∃ upd : Pfdat → Pfdat, upd = fun x => { x with
        queue := true, bad := false, hash := false, done := false, swap := false,
        waiting := false } := ⟨_, rfl⟩
    have hself : (u.setPfd pfd upd).pfd pfd = upd (u.pfd pfd) := setPfd_self
    have hother : ∀ g, g ≠ pfd → (u.setPfd pfd upd).pfd g = s.pfd g := fun g hg => by
      rw [setPfd_of_ne hg, hrel.pfd]
    have hupduse : ∀ g, ((u.setPfd pfd upd).pfd g).pf_use = (s.pfd g).pf_use := by
      intro g
      by_cases hg : g = pfd
      · rw [hg, hself, hupd, hrel.pfd]
      · rw [hother g hg]
    have hqv : Queues c (u.setPfd pfd upd) (Q ++ [pfd]) D := by
      refine hq.change (f := pfd) ⟨hlu.circ, hlu.deleted, hlu.disjoint⟩ (by omega)
        (fun g hg => by rw [hother g hg]) (fun g hg => ?_) (fun _ _ hg => hg) ?_
        fun _ => (hupduse pfd).trans huse
      · simp [hg]
      · rw [hself, hupd]
        simp
    have hnone : ∀ g, (s.pfd g).hash = false := fun g =>
      Bool.eq_false_iff.mpr fun hg => by simpa using (hc.mem (s.frameSlot c g) g).mpr ⟨hg, rfl⟩
    have hcv : Chains c (u.setPfd pfd upd) fun _ => [] := by
      refine hc.congr hrel.phash (fun g => ?_) fun g hg => ?_
      · by_cases hg : g = pfd
        · rw [hg, hself, hupd, hnone]
        · rw [hother g hg]
      · rw [hnone g] at hg
        cases hg
    obtain ⟨t, ht, hqt, hct, hfm, hdc, hut⟩ := ih hqv hcv (fun g (h1 : pfd + 1 ≤ g) h2 => by
      obtain ⟨h3, h4, h5⟩ := hnew g (by omega) (by omega)
      have hg : g ≠ pfd := by omega
      exact ⟨by simp [h3, hg], h4, by rw [hupduse]; exact h5⟩) (by omega)
    have hr : u = _ := hrel
    refine ⟨t, ?_, ?_, hct, hfm.trans (by rw [hr]; rfl), hdc.trans (by rw [hr]; rfl),
      fun g => (hut g).trans (hupduse g)⟩
    · unfold meminitRow
      rw [hu, bind_some, ← hupd]
      exact ht
    · rw [List.range'_succ]
      simpa using hqt

end Pages

/-- The table of memory, as found: each bank reaches up to the first free page or further, lies
below the highest click, and has no page in common with another one. -/
structure RamOk (c : PageConf) (first : ℕ) (ram_tbl : List Ram) : Prop where
  bound : ∀ r ∈ ram_tbl, r.found = true →
    first ≤ r.ram_lo + r.ram_sz ∧ r.ram_lo + r.ram_sz ≤ c.maxclick
  disjoint : ram_tbl.Pairwise fun a b => a.found = true → b.found = true →
    a.ram_lo + a.ram_sz ≤ b.ram_lo ∨ b.ram_lo + b.ram_sz ≤ a.ram_lo

namespace Pages

variable {c : PageConf} {s t : Pages} {Q D : List ℕ} {C : ℕ → List ℕ} {first : ℕ}
variable {ram_tbl : List Ram}

theorem meminitLoop_spec (hram : RamOk c first ram_tbl) (hq : Queues c s Q D)
    (hc : Chains c s fun _ => []) (huse : ∀ g, (s.pfd g).pf_use = 0)
    (hnew : ∀ r ∈ ram_tbl, r.found = true → ∀ g, r.ram_lo ≤ g → g < r.ram_lo + r.ram_sz →
      g ∉ Q ∧ g ∉ D) :
    ∃ t Q', s.meminitLoop first ram_tbl = some t ∧ Queues c t Q' D ∧ Chains c t (fun _ => []) ∧
      t.freemem - Q'.length = s.freemem - Q.length ∧ t.delmemCnt = s.delmemCnt := by
  induction ram_tbl generalizing s Q with
  | nil => exact ⟨s, Q, rfl, hq, hc, rfl, rfl⟩
  | cons r l ih =>
    have hpw := pairwise_cons.mp hram.disjoint
    have hram' : RamOk c first l :=
      ⟨fun r' hr' => hram.bound r' (mem_cons_of_mem _ hr'), hpw.2⟩
    unfold meminitLoop
    by_cases hf : r.found = true
    case neg =>
      rw [if_neg hf]
      exact ih hram' hq hc huse fun r' hr' => hnew r' (mem_cons_of_mem _ hr')
    rw [if_pos hf]
    dsimp only
    obtain ⟨h1, h2⟩ := hram.bound r mem_cons_self hf
    have hmax := c.maxclick_le
    obtain ⟨addr, haddr⟩ : ∃ addr, addr = max r.ram_lo first := ⟨_, rfl⟩
    obtain ⟨size, hsize⟩ : ∃ size, size =
      BitVec.ofNat 32 r.ram_sz - BitVec.ofNat 32 (addr - r.ram_lo) := ⟨_, rfl⟩
    rw [← haddr, ← hsize]
    have hnat : size.toNat = r.ram_sz - (addr - r.ram_lo) := by
      rw [hsize, BitVec.toNat_sub_of_le]
      · rw [BitVec.toNat_ofNat, BitVec.toNat_ofNat, Nat.mod_eq_of_lt (by omega),
          Nat.mod_eq_of_lt (by omega)]
      · rw [BitVec.le_def, BitVec.toNat_ofNat, BitVec.toNat_ofNat, Nat.mod_eq_of_lt (by omega),
          Nat.mod_eq_of_lt (by omega)]
        omega
    have hint : size.toInt = size.toNat := by
      rw [BitVec.toInt_eq_toNat_of_lt]
      omega
    obtain ⟨u, hu, hqu, hcu, hfm, hdc, hus⟩ := meminitRow_spec (k := size.toNat) hq hc
      (fun g (h3 : addr ≤ g) h4 => by
        have h5 := hnew r mem_cons_self hf g (by omega) (by omega)
        exact ⟨h5.1, h5.2, huse g⟩) (by omega)
    rw [hu, bind_some]
    obtain ⟨t, Q', ht, hqt, hct, hft, hdt⟩ := ih (s := { u with freemem := u.freemem + size.toInt })
      hram' (hqu.congr rfl rfl fun _ => rfl) (hcu.congr rfl (fun _ => rfl) fun _ _ => rfl)
      (fun g => (hus g).trans (huse g)) fun r' hr' hf' g h3 h4 => by
        have h5 := hnew r' (mem_cons_of_mem _ hr') hf' g h3 h4
        have h6 := hpw.1 r' hr' hf hf'
        refine ⟨?_, h5.2⟩
        rw [mem_append, not_or, mem_range'_1]
        exact ⟨h5.1, by omega⟩
    refine ⟨t, Q', ht, hqt, hct, ?_, hdt.trans hdc⟩
    have hft' : t.freemem - Q'.length =
        u.freemem + size.toInt - (Q ++ List.range' addr size.toNat).length := hft
    rw [hft', hfm, length_append, length_range', hint]
    omega

/-- After `meminit` all pages of the table are free. -/
theorem meminit_lists (hram : RamOk c first ram_tbl) :
    ∃ s Q, meminit first ram_tbl = some s ∧ Lists c s Q [] fun _ => [] := by
  have hq : Queues c boot [] [] :=
    { circ := circ_nil rfl rfl
      deleted := Or.inl ⟨rfl, rfl⟩
      disjoint := by simp
      mem := fun f => by simp [boot]
      notMem := by simp
      idle := by simp
      known := fun f => by simp [boot] }
  have hc : Chains c boot fun _ => [] :=
    { path := fun h => rfl
      nodup := fun h => nodup_nil
      mem := fun h f => by simp [boot]
      keys := fun f g hf => by simp [boot] at hf
      blkno := fun f hf => by simp [boot] at hf
      known := fun f hf => by simp [boot] at hf }
  have hrev : RamOk c first ram_tbl.reverse := by
    refine ⟨fun r hr => hram.bound r (mem_reverse.mp hr), pairwise_reverse.mpr ?_⟩
    exact hram.disjoint.imp fun h hb ha => (h ha hb).symm
  obtain ⟨t, Q, ht, hqt, hct, hfm, hdc⟩ := meminitLoop_spec hrev hq hc (fun g => rfl) (by simp)
  unfold meminit
  rw [ht]
  refine ⟨_, Q, rfl, hqt.congr rfl rfl fun _ => rfl, hct.congr rfl (fun _ => rfl) fun _ _ => rfl,
    ?_, hdc⟩
  have h1 : t.freemem - (Q.length : ℤ) = 0 := hfm
  show t.freemem = Q.length
  omega

/-! ## Runs -/

/-- No negative number of deleted pages is given back. -/
def GivesBack : PageEvent → Prop
  | .addmem size => 0 ≤ size.toInt
  | _ => True

theorem step_lists {e : PageEvent} (h : Lists c s Q D C) (he : GivesBack e)
    (ht : s.step c e = some t) : ∃ Q' D' C', Lists c t Q' D' C' := by
  cases e with
  | ptmemall rp base size validate slept =>
    obtain ⟨⟨r, u⟩, hu, rfl⟩ := map_eq_some_iff.mp ht
    obtain ⟨Q', C', h'⟩ := ptmemall_lists h hu
    exact ⟨Q', D, C', h'⟩
  | pfree rp pt dbd size sw =>
    obtain ⟨Q', C', hk⟩ := pfree_spec h.chains h.queues ht
    exact ⟨Q', D, C', h.kept hk⟩
  | contmemall npgs =>
    obtain ⟨⟨r, u⟩, hu, rfl⟩ := map_eq_some_iff.mp ht
    obtain ⟨Q', C', h'⟩ := contmemall_lists h hu
    exact ⟨Q', D, C', h'⟩
  | freecpages pfn npgs =>
    unfold step freecpages at ht
    dsimp only at ht
    obtain ⟨w, hw⟩ : ∃ w, w = { s with
        availrmem := s.availrmem + npgs.toInt
        availsmem := s.availsmem + npgs.toInt } := ⟨_, rfl⟩
    rw [← hw] at ht
    have hk0 : Kept c s w Q Q D C := by
      rw [hw]
      exact (Kept.refl h.chains h.queues).congr rfl rfl rfl rfl rfl rfl
    obtain ⟨Q', hk⟩ := freecpagesLoop_spec hk0.chains hk0.queues ht
    exact ⟨Q', D, C, h.kept (hk0.trans hk)⟩
  | pinsert rp dbd pfd =>
    obtain ⟨C', hc, hq, hs⟩ := pinsert_spec h.chains h.queues ht
    have hs' : t = _ := hs
    exact ⟨Q, D, C', hq, hc, by rw [hs']; exact h.free, by rw [hs']; exact h.deleted⟩
  | premove pfd =>
    obtain ⟨⟨r, u⟩, hu, rfl⟩ := map_eq_some_iff.mp ht
    have hf : (s.pfd pfd).hash = true := by
      unfold premove at hu
      exact (ite_none_right_eq_some.mp hu).1
    obtain ⟨v, Q', C', hv, hd⟩ := premove_spec h.chains h.queues hf
    rw [hu] at hv
    cases hv
    exact ⟨Q', D, C', h.kept hd.kept⟩
  | pbremove rp dbd =>
    obtain ⟨⟨r, u⟩, hu, rfl⟩ := map_eq_some_iff.mp ht
    obtain ⟨Q', C', hk⟩ := pbremove_kept h.chains h.queues hu
    exact ⟨Q', D, C', h.kept hk⟩
  | addfpg rp pt =>
    obtain ⟨hf, ht⟩ := ite_none_right_eq_some.mp ht
    unfold addfpg at ht
    dsimp only at ht
    obtain ⟨-, ht⟩ := ite_none_right_eq_some.mp ht
    obtain ⟨u, hu, rfl⟩ := map_eq_some_iff.mp ht
    have hk0 : Kept c s (s.setPt pt { s.pt pt with valid := false }) Q Q D C :=
      (Kept.refl h.chains h.queues).congr rfl rfl rfl rfl rfl rfl
    obtain ⟨v, Q', hv, hk⟩ := release_spec hk0.chains hk0.queues hf
    rw [hu] at hv
    cases hv
    exact ⟨Q', D, C, h.kept ((hk0.trans hk).congr rfl rfl rfl rfl rfl rfl)⟩
  | memfree pgl =>
    unfold step memfree at ht
    obtain ⟨-, ht⟩ := ite_none_right_eq_some.mp ht
    obtain ⟨Q', hk⟩ := memfreeLoop_spec h.chains h.queues ht
    exact ⟨Q', D, C, h.kept hk⟩
  | delmem size => exact delmem_lists h ht
  | addmem size => exact addmem_lists h he ht
  | share pfd =>
    obtain ⟨hf, hs⟩ := ite_none_right_eq_some.mp ht
    cases hs
    exact ⟨Q, D, C, h.queues.use hf rfl, h.chains.congr rfl
      (fun g => setPfd_view Pfdat.hash rfl g) fun g _ => setPfd_view hview rfl g, h.free, h.deleted⟩
  | mark pfd bad done waiting rawcnt =>
    cases ht
    exact ⟨Q, D, C, h.queues.congr rfl rfl fun g => setPfd_view qview rfl g, h.chains.congr rfl
      (fun g => setPfd_view Pfdat.hash rfl g) fun g _ => setPfd_view hview rfl g, h.free, h.deleted⟩
  | tables pt dbd r_iptr =>
    cases ht
    exact ⟨Q, D, C, h.queues.congr rfl rfl fun _ => rfl,
      h.chains.congr rfl (fun _ => rfl) fun _ _ => rfl, h.free, h.deleted⟩

/-- **The lists of page frames are consistent.**  After any calls from `meminit` on, of which none
gives `addmem` a negative size, there are a list `Q` of frames that the links of `phead` run
through, on which a frame is if and only if `P_QUEUE` is set, which nobody uses then, and whose
length is `freemem`; and for each slot a list `C` of frames that its chain runs through, up to the
slot itself, on which a frame is if and only if `P_HASH` is set and its key selects that slot, with
no other frame of the same key. -/
theorem page_lists {es : List PageEvent} {s₀ : Pages} (hram : RamOk c first ram_tbl)
    (h₀ : meminit first ram_tbl = some s₀) (hC : StepsMeet (fun _ e => GivesBack e) (step c) s₀ es)
    (hrun : exec (step c) s₀ es = some s) : ∃ Q D C, Lists c s Q D C := by
  obtain ⟨s₁, Q₀, h₁, hl⟩ := meminit_lists hram
  rw [h₀] at h₁
  cases h₁
  have hinit : ∃ Q D C, Lists c s₀ Q D C := ⟨Q₀, [], _, hl⟩
  refine exec_invariant (P := fun s => ∃ Q D C, Lists c s Q D C) ?_ hinit hC hrun
  rintro s e t ⟨Q, D, C, h⟩ he ht
  exact step_lists h he ht

/-! ## A negative size -/

/-- A machine whose only free page is page 2. -/
def onePage : PageConf where
  kpbase := 2
  maxclick := 3
  maxclick_le := by decide
  phashmask := 0
  st_dev := fun _ => 0
  t_minasmem := 0
  t_minarmem := 0
  kdebug200 := false
  v_maxswaplist := 1

theorem onePage_ram : RamOk onePage 2 [⟨true, 0, 3⟩] :=
  ⟨by simp [onePage], pairwise_singleton _ _⟩

/-- The only page is deleted, given back, allocated and freed. -/
theorem page_lists_run : ∃ s₀ s, meminit 2 [⟨true, 0, 3⟩] = some s₀ ∧
    exec (step onePage) s₀ [.delmem 1, .addmem 1, .ptmemall 0 0 1 true false,
      .pfree (some 0) 0 true 1 fun _ => false] = some s ∧ ∃ Q D C, Lists onePage s Q D C := by
  have hrun : ((meminit 2 [⟨true, 0, 3⟩]).bind fun s₀ =>
      exec (step onePage) s₀ [.delmem 1, .addmem 1, .ptmemall 0 0 1 true false,
        .pfree (some 0) 0 true 1 fun _ => false]).isSome = true := by decide
  obtain ⟨s, hs⟩ := isSome_iff_exists.mp hrun
  obtain ⟨s₀, h₀, h⟩ := bind_eq_some_iff.mp hs
  refine ⟨s₀, s, h₀, h, page_lists onePage_ram h₀ (stepsMeet_of_forall fun e he s => ?_) h⟩
  simp only [mem_cons, not_mem_nil, or_false] at he
  rcases he with rfl | rfl | rfl | rfl
  · trivial
  · exact (by decide : (0 : ℤ) ≤ (1 : BitVec 32).toInt)
  · trivial
  · trivial

/-- The links of the two heads and of page 2. -/
def threeCells (a b d : Option Pfp) : Pfp → Option Pfp
  | .phead => a
  | .delmem => b
  | .pfd n => if n = 2 then d else none

section threeCells

variable {a b d y : Option Pfp}

theorem update_threeCells_phead :
    update (threeCells a b d) .phead y = threeCells y b d := by
  funext x
  cases x <;> simp [threeCells]

theorem update_threeCells_delmem :
    update (threeCells a b d) .delmem y = threeCells a y d := by
  funext x
  cases x <;> simp [threeCells]

theorem update_threeCells_pfd :
    update (threeCells a b d) (.pfd 2) y = threeCells a b y := by
  funext x
  cases x with
  | phead => simp [threeCells]
  | delmem => simp [threeCells]
  | pfd n =>
    by_cases hn : n = 2
    · simp [threeCells, hn]
    · simp [threeCells, hn]

end threeCells

/-- The state with these links. -/
def linked (s : Pages) (next prev : Pfp → Option Pfp) : Pages :=
  { s with next := next, prev := prev }

/-- The body of the loop of `addmem` on frames that are flagged already. -/
theorem addmemStep_linked {next prev : Pfp → Option Pfp} {x m y : Pfp}
    (h1 : next .delmem = some x) (h2 : next x = some m)
    (h3 : update next .delmem (some m) .phead = some y)
    (hq : ∀ f, x = .pfd f → (s.pfd f).queue = true) :
    (s.linked next prev).addmemStep = some (s.linked
      (update (update (update next .delmem (some m)) x (some y))
        .phead (some x))
      (update (update (update prev m (some .delmem)) x (some .phead))
        y (some x))) := by
  unfold addmemStep atHead linked
  dsimp only
  rw [h1, bind_some, h2, bind_some, h3]
  dsimp only [map_some]
  cases x with
  | phead => rfl
  | delmem => rfl
  | pfd f =>
    have hx : { s.pfd f with queue := true } = s.pfd f := by rw [← hq f rfl]
    unfold setPfd
    dsimp only
    rw [show update s.pfd f { s.pfd f with queue := true } = s.pfd by
      rw [hx, update_eq_self]]

theorem addmemLoop_add (m n : ℕ) :
    s.addmemLoop (m + n) = (s.addmemLoop m).bind fun t => t.addmemLoop n := by
  induction m generalizing s with
  | zero => rw [Nat.zero_add]; rfl
  | succ m ih =>
    rw [Nat.succ_add, addmemLoop, addmemLoop]
    cases s.addmemStep with
    | none => rfl
    | some t => exact ih

/-- The links when page 2 is on the queue and no page is deleted, both ways. -/
def oneFree : Pfp → Option Pfp := threeCells (some (.pfd 2)) (some .delmem) (some .phead)

/-- With one page on the queue and none deleted, three turns of the loop of `addmem` leave the
queue empty, with the page on the list of deleted ones. -/
theorem addmemLoop_three (hq : (s.pfd 2).queue = true) :
    (s.linked oneFree oneFree).addmemLoop 3 =
      some (s.linked (threeCells (some .phead) (some (.pfd 2)) (some .delmem))
        (threeCells (some .phead) (some (.pfd 2)) (some .phead))) := by
  have hq' : ∀ x f, x = Pfp.pfd 2 → x = .pfd f → (s.pfd f).queue = true := by
    rintro x f rfl he
    cases he
    exact hq
  have h1 : (s.linked oneFree oneFree).addmemStep =
      some (s.linked (threeCells (some .delmem) (some (.pfd 2)) (some .phead))
        (threeCells (some (.pfd 2)) (some .phead) (some .delmem))) := by
    have hdel : oneFree .delmem = some .delmem := rfl
    have hhead : update oneFree .delmem (some .delmem) .phead = some (.pfd 2) := by
      rw [oneFree, update_threeCells_delmem]
      rfl
    rw [addmemStep_linked hdel hdel hhead (by simp), oneFree]
    simp only [update_threeCells_phead, update_threeCells_delmem, update_threeCells_pfd]
  have h2 : (s.linked (threeCells (some .delmem) (some (.pfd 2)) (some .phead))
      (threeCells (some (.pfd 2)) (some .phead) (some .delmem))).addmemStep =
      some (s.linked (threeCells (some (.pfd 2)) (some .phead) (some .delmem))
        (threeCells (some .delmem) (some (.pfd 2)) (some .phead))) := by
    rw [addmemStep_linked (x := .pfd 2) (m := .phead) (y := .delmem) rfl rfl
      (by rw [update_threeCells_delmem]; rfl) fun f => hq' _ f rfl]
    simp only [update_threeCells_phead, update_threeCells_delmem, update_threeCells_pfd]
  have h3 : (s.linked (threeCells (some (.pfd 2)) (some .phead) (some .delmem))
      (threeCells (some .delmem) (some (.pfd 2)) (some .phead))).addmemStep =
      some (s.linked (threeCells (some .phead) (some (.pfd 2)) (some .delmem))
        (threeCells (some .phead) (some (.pfd 2)) (some .phead))) := by
    rw [addmemStep_linked (x := .phead) (m := .pfd 2) (y := .pfd 2) rfl rfl
      (by rw [update_threeCells_delmem]; rfl) (by simp)]
    simp only [update_threeCells_phead, update_threeCells_delmem, update_threeCells_pfd]
  rw [addmemLoop, h1, bind_some, addmemLoop, h2, bind_some, addmemLoop, h3]
  rfl

/-- The fourth turn leads back to the start. -/
theorem addmemLoop_four (hq : (s.pfd 2).queue = true) :
    (s.linked oneFree oneFree).addmemLoop 4 = some (s.linked oneFree oneFree) := by
  rw [addmemLoop_add 3 1, addmemLoop_three hq, bind_some, addmemLoop,
    addmemStep_linked (x := .pfd 2) (m := .delmem) (y := .phead) rfl rfl
      (by rw [update_threeCells_delmem]; rfl) (by
        intro f he
        cases he
        exact hq)]
  simp only [update_threeCells_phead, update_threeCells_delmem, update_threeCells_pfd]
  rfl

theorem addmemLoop_turns (hq : (s.pfd 2).queue = true) (k : ℕ) :
    (s.linked oneFree oneFree).addmemLoop (4 * k + 3) =
      some (s.linked (threeCells (some .phead) (some (.pfd 2)) (some .delmem))
        (threeCells (some .phead) (some (.pfd 2)) (some .phead))) := by
  induction k with
  | zero => exact addmemLoop_three hq
  | succ k ih =>
    rw [show 4 * (k + 1) + 3 = 4 + (4 * k + 3) by omega, addmemLoop_add, addmemLoop_four hq]
    exact ih

/-- **One page is free, and -1 deleted pages are given back.**  The loop of `addmem` runs
`2 ^ 32 - 1` times.  It leaves the queue empty and the page flagged as on it. -/
theorem addmem_negative : RamOk onePage 2 [⟨true, 0, 3⟩] ∧
    ∃ s, (meminit 2 [⟨true, 0, 3⟩]).bind (fun s₀ =>
      exec (step onePage) s₀ [.delmem 0, .addmem (-1)]) = some s ∧
      ¬ ∃ Q D C, Lists onePage s Q D C := by
  refine ⟨onePage_ram, ?_⟩
  obtain ⟨s₀, h₀⟩ : ∃ s₀, meminit 2 [⟨true, 0, 3⟩] = some s₀ := ⟨_, rfl⟩
  obtain ⟨s₁, h₁⟩ : ∃ s₁, s₀.delmem onePage 0 = some s₁ := by
    cases h₀
    exact ⟨_, rfl⟩
  have hlinks : s₁ = s₁.linked oneFree oneFree ∧ (s₁.pfd 2).queue = true ∧ s₁.delmemCnt = 0 := by
    cases h₀
    cases h₁
    refine ⟨?_, rfl, rfl⟩
    unfold linked
    congr 1
    · funext x
      cases x with
      | phead => rfl
      | delmem => rfl
      | pfd n =>
        by_cases hn : n = 2
        · subst hn
          rfl
        · simp [oneFree, threeCells, hn, boot, setPfd]
    · funext x
      cases x with
      | phead => rfl
      | delmem => rfl
      | pfd n =>
        by_cases hn : n = 2
        · subst hn
          rfl
        · simp [oneFree, threeCells, hn, boot, setPfd]
  obtain ⟨hl, hq, hcnt⟩ := hlinks
  have hint : (-1 : BitVec 32).toInt = -1 := by decide
  have hnat : (-1 : BitVec 32).toNat = 4 * 1073741823 + 3 := by decide
  obtain ⟨u, hu⟩ : ∃ u : Pages, u = { s₁ with
      delmemCnt := s₁.delmemCnt - -1
      freemem := s₁.freemem + -1
      availrmem := s₁.availrmem + -1
      availsmem := s₁.availsmem + -1 } := ⟨_, rfl⟩
  have hul : u = u.linked oneFree oneFree := by
    rw [hu]
    unfold linked at hl ⊢
    rw [hl]
  have huq : (u.pfd 2).queue = true := by
    rw [hu]
    exact hq
  have h₂ : s₁.addmem (-1) = u.addmemLoop (4 * 1073741823 + 3) := by
    unfold addmem
    rw [hint, hnat, if_neg (by rw [hcnt]; decide), hu]
  rw [hul, addmemLoop_turns huq] at h₂
  refine ⟨u.linked (threeCells (some .phead) (some (.pfd 2)) (some .delmem))
    (threeCells (some .phead) (some (.pfd 2)) (some .phead)), ?_, ?_⟩
  · rw [h₀, bind_some, exec, step, h₁, bind_some, exec, step, h₂]
    rfl
  · rintro ⟨Q, D, C, h⟩
    have hhead := h.queues.circ.fwd.head
    have hmem : 2 ∈ Q := (h.queues.mem 2).mpr huq
    cases Q with
    | nil => simp at hmem
    | cons f l => cases hhead

end Pages

end Os
