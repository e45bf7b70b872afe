import OpusSysV.Cmd.ElmAdd

/-!
# The event list of `cron`: removing

`el_remove` takes a notice first out of its sublist, which may be merged with a neighbour, and then
out of the list of notices.

* `KeysOnly` — what the first part leaves alone.
* `Keyed.replace`, `Keyed.unlinkKey`, `Keyed.mergeKey` — a block changes, goes, or joins the next.
* `Shape.dropFromKey` — the keys without a notice; `Shape.removeLoop` — the loop.
* `Rep.el_remove` — the whole routine, when an event is left.
-/

namespace Cmd.Elm

open Lib Function List Option

/-- Nothing but the keys differs, and which notices have one. -/
structure KeysOnly (s t : El) : Prop where
  time : t.notice.time = s.notice.time
  id : t.notice.id = s.notice.id
  event : t.notice.event = s.notice.event
  isdummy : t.notice.isdummy = s.notice.isdummy
  left : t.notice.left = s.notice.left
  right : t.notice.right = s.notice.right
  ind : t.ind = s.ind
  index : t.index = s.index
  current : t.current = s.current
  avail : t.avail = s.avail
  params : params t = params s

section keys

variable {s t u : El} {I : List ℕ} {B P Q : List Block} {b b' c : Block} {j n : ℕ}

section

variable (h : KeysOnly s t)

include h

theorem KeysOnly.trans (h' : KeysOnly t u) : KeysOnly s u :=
  ⟨h'.time.trans h.time, h'.id.trans h.id, h'.event.trans h.event, h'.isdummy.trans h.isdummy,
    h'.left.trans h.left, h'.right.trans h.right, h'.ind.trans h.ind, h'.index.trans h.index,
    h'.current.trans h.current, h'.avail.trans h.avail, h'.params.trans h.params⟩

theorem KeysOnly.nlim : t.NLIM = s.NLIM := by
  have hp := h.params
  simp only [Elm.params, Prod.mk.injEq] at hp
  exact hp.2.2.2

theorem KeysOnly.dummyBlock (b : Block) : dummyBlock t b = dummyBlock s b := by
  rw [Elm.dummyBlock, h.isdummy, Elm.dummyBlock]

/-- The index goes on to have the keys of the dummy notices. -/
theorem KeysOnly.indKey {C D : List Block} (hB : Keyed s (P ++ C ++ Q) I)
    (hP : P ≠ []) (hC : (C.filter (Elm.dummyBlock s)).map Block.key =
      (D.filter (Elm.dummyBlock s)).map Block.key) :
    I.map t.ind.key = ((P ++ D ++ Q).tail.filter (Elm.dummyBlock t)).map Block.key := by
  obtain ⟨p, P', rfl⟩ := exists_cons_of_ne_nil hP
  rw [h.ind, hB.indKey, filter_congr fun x _ => h.dummyBlock x]
  simp only [cons_append, tail_cons, filter_append, map_append, hC]

theorem KeysOnly.first {C D : List Block} (hB : Keyed s (P ++ C ++ Q) I)
    (hP : P ≠ []) : ∃ b B', P ++ D ++ Q = b :: B' ∧ b.init = [] ∧ t.notice.isdummy b.last = true := by
  obtain ⟨p, P', rfl⟩ := exists_cons_of_ne_nil hP
  obtain ⟨x, B', hx, h1, h2⟩ := hB.first
  obtain ⟨rfl, -⟩ := List.cons.inj hx
  exact ⟨p, P' ++ D ++ Q, rfl, h1, by rw [h.isdummy]; exact h2⟩

/-- A block of which neither the key nor the notices are concerned. -/
theorem KeysOnly.blockOk (hc : BlockOk s c)
    (hk : t.key.notice c.key = s.key.notice c.key ∧ t.key.time c.key = s.key.time c.key ∧
      t.key.numnote c.key = s.key.numnote c.key)
    (hn : ∀ n ∈ c.notices, t.notice.key n = s.notice.key n) : BlockOk t c :=
  hc.congr h.nlim hk fun n hm => ⟨by rw [h.time], by rw [h.isdummy], hn n hm⟩

end

/-- One block changes, the others stay. -/
theorem Keyed.replace (h : Keyed s (P ++ b :: Q) I) (hP : P ≠ []) (hko : KeysOnly s t)
    (hb' : BlockOk t b') (hkey : b'.key = b.key) (hdum : dummyBlock s b' = dummyBlock s b)
    (hleft : t.key.left = s.key.left) (hright : t.key.right = s.key.right)
    (hk : ∀ k, k ≠ b.key → t.key.notice k = s.key.notice k ∧ t.key.time k = s.key.time k ∧
      t.key.numnote k = s.key.numnote k)
    (hn : ∀ c ∈ P ++ Q, ∀ n ∈ c.notices, t.notice.key n = s.notice.key n) :
    Keyed t (P ++ b' :: Q) I := by
  have hkeys : keys (P ++ b' :: Q) = keys (P ++ b :: Q) := by simp [hkey]
  have hB : Keyed s (P ++ [b] ++ Q) I := by simpa using h
  refine ⟨fun c hc => ?_, ?_, ?_, ?_, ?_, h.indNodup, ?_, ?_, ?_⟩
  · have hcase : c ∈ P ++ Q ∨ c = b' := by
      simp only [mem_append, mem_cons] at hc ⊢
      tauto
    rcases hcase with hc | rfl
    · have hmem : c ∈ P ++ b :: Q := by
        rcases mem_append.mp hc with hc | hc <;> simp [hc]
      exact hko.blockOk (h.block c hmem) (hk _ (key_ne_other h.nodup hc)) (hn c hc)
    · exact hb'
  · rw [hleft, hright, hkeys]
    exact h.linked
  · rw [hkeys]
    exact h.nodup
  · rw [hkeys, hko.avail]
    exact h.avail
  · rw [hko.ind, hko.index]
    exact h.index
  · rw [hko.avail]
    exact h.indAvail
  · have hk := hko.indKey (D := [b']) hB hP (by
      simp only [filter_cons, filter_nil, hdum]
      split <;> simp [hkey])
    simpa using hk
  · simpa using hko.first (D := [b']) hB hP

/-- The number of notices of a key, before it is unlinked. -/
def setNumnote (s : El) (k : ℕ) (v : ℤ) : El :=
  { s with key.numnote := update s.key.numnote k v }

theorem KeysOnly.setNumnote (s : El) (k : ℕ) (v : ℤ) : KeysOnly s (setNumnote s k v) :=
  ⟨rfl, rfl, rfl, rfl, rfl, rfl, rfl, rfl, rfl, rfl, rfl⟩

/-- A block goes, which ended with an event; what number its key has does not matter. -/
theorem Keyed.unlinkKey (h : Keyed s (P ++ b :: Q) I) (hP : P ≠ []) (hQ : Q ≠ [])
    (hreal : s.notice.isdummy b.last = false) (v : ℤ) :
    ∃ t, (setNumnote s b.key v).unlinkKey b.key = some t ∧ Keyed t (P ++ Q) I ∧ KeysOnly s t := by
  have hlink := h.linked
  have hnd := h.nodup
  rw [keys_append, keys_cons] at hlink hnd
  obtain ⟨right, left, hun, hd, -⟩ := hlink.unlink hnd (by simpa [keys] using hP)
    (by simpa [keys] using hQ)
  have hB : Keyed s (P ++ [b] ++ Q) I := by simpa using h
  obtain ⟨t, ht, hl, hr, hkt, hkn, hkm, hnk, hko⟩ :
      ∃ t, (setNumnote s b.key v).unlinkKey b.key = some t ∧
      t.key.left = left ∧ t.key.right = right ∧ t.key.time = s.key.time ∧
      t.key.notice = s.key.notice ∧ t.key.numnote = update s.key.numnote b.key v ∧
      t.notice.key = s.notice.key ∧ KeysOnly s t :=
    ⟨{ setNumnote s b.key v with key.right := right, key.left := left },
      by rw [El.unlinkKey, show unlink (setNumnote s b.key v).key.right
        (setNumnote s b.key v).key.left b.key = some (right, left) from hun]; rfl, rfl, rfl, rfl,
      rfl, rfl, rfl, ⟨rfl, rfl, rfl, rfl, rfl, rfl, rfl, rfl, rfl, rfl, rfl⟩⟩
  have hmem : ∀ c ∈ P ++ Q, c ∈ P ++ b :: Q := fun c hc => by
    rcases mem_append.mp hc with hc | hc <;> simp [hc]
  refine ⟨t, ht, ⟨fun c hc => hko.blockOk (h.block c (hmem c hc)) ?_ ?_, ?_, ?_, ?_, ?_,
    h.indNodup, ?_, ?_, ?_⟩, hko⟩
  · rw [hkt, hkn, hkm, update_of_ne (key_ne_other h.nodup hc)]
    exact ⟨rfl, rfl, rfl⟩
  · rw [hnk]
    exact fun _ _ => rfl
  · rw [hl, hr, keys_append]
    exact hd.self
  · rw [keys_append]
    exact (nodup_cons.mp (nodup_middle.mp hnd)).2
  · rw [hko.avail]
    intro k hk
    refine h.avail k ?_
    rw [keys_append] at hk
    rw [keys_append, keys_cons]
    rcases mem_append.mp hk with hk | hk <;> simp [hk]
  · rw [hko.ind, hko.index]
    exact h.index
  · rw [hko.avail]
    exact h.indAvail
  · have hk := hko.indKey (D := []) hB hP (by
      simp [Elm.dummyBlock, hreal])
    simpa using hk
  · simpa using hko.first (D := []) hB hP

/-- One notice less in a sublist, not its last one. -/
theorem Keyed.decrement {l₁ l₂ : List ℕ} (h : Keyed s (P ++ b :: Q) I) (hP : P ≠ [])
    (hinit : b.init = l₁ ++ n :: l₂) :
    Keyed (setNumnote s b.key (s.key.numnote b.key - 1)) (P ++ ⟨b.key, l₁ ++ l₂, b.last⟩ :: Q)
      I := by
  have hb := h.block b (by simp)
  have hnum := hb.numnote
  have hlim := hb.limit
  have hlen := congrArg List.length hinit
  rw [length_append, length_cons] at hlen
  refine h.replace hP (KeysOnly.setNumnote ..) ⟨hb.notice, hb.time, ?_, ?_, hb.back,
    fun m hm => ?_⟩ rfl rfl rfl rfl (fun k hne => ⟨rfl, rfl, update_of_ne hne ..⟩)
    fun _ _ _ _ => rfl
  · show update s.key.numnote b.key _ b.key = _
    rw [update_self, length_append]
    omega
  · show ((l₁ ++ l₂).length : ℤ) + 1 ≤ s.NLIM
    rw [length_append]
    omega
  · refine hb.inner m ?_
    rw [hinit]
    rcases mem_append.mp hm with hm | hm <;> simp [hm]

/-- A block that ends with an event joins the one behind it. -/
theorem Keyed.mergeKey (h : Keyed s (P ++ b :: c :: Q) I)
    (hnd : (notices (P ++ b :: c :: Q)).Nodup) (hP : P ≠ [])
    (hreal : s.notice.isdummy b.last = false)
    (hlim : s.key.numnote c.key + s.key.numnote b.key ≤ s.NLIM) :
    ∃ t, s.mergeKey b.key c.key = some t ∧
      Keyed t (P ++ ⟨c.key, b.init ++ b.last :: c.init, c.last⟩ :: Q) I ∧ KeysOnly s t := by
  have hb := h.block b (by simp)
  have hc := h.block c (by simp)
  obtain ⟨P', p, hPp⟩ := (eq_nil_or_concat' P).resolve_left hP
  have hlink := h.linked
  have hkn := h.nodup
  have hkeys : keys (P ++ b :: c :: Q) = keys P' ++ p.key :: b.key :: c.key :: keys Q := by
    simp [hPp]
  have hkeys' : keys (P ++ ⟨c.key, b.init ++ b.last :: c.init, c.last⟩ :: Q) =
      keys P' ++ p.key :: c.key :: keys Q := by simp [hPp]
  rw [hkeys] at hlink hkn
  have hleft : s.key.left b.key = some p.key := by
    have hl := hlink
    rw [show keys P' ++ p.key :: b.key :: c.key :: keys Q =
      (keys P' ++ [p.key]) ++ b.key :: c.key :: keys Q by simp] at hl
    rw [hl.prev_eq, List.getLast?_concat]
  have hd := hlink.cut hkn
  have hB : Keyed s (P ++ [b, c] ++ Q) I := by simpa using h
  obtain ⟨t, ht, hl, hr, hkt, hkno, hkm, hnk, hko⟩ : ∃ t, s.mergeKey b.key c.key = some t ∧
      t.key.left = update s.key.left c.key (some p.key) ∧
      t.key.right = update s.key.right p.key (some c.key) ∧ t.key.time = s.key.time ∧
      t.key.notice = s.key.notice ∧
      t.key.numnote = update s.key.numnote c.key (s.key.numnote c.key + s.key.numnote b.key) ∧
      t.notice.key = update s.notice.key b.last none ∧ KeysOnly s t := by
    have hm := El.mergeKey.eq_def s b.key c.key
    rw [hleft, map_some, hb.notice] at hm
    exact ⟨_, hm, rfl, rfl, rfl, rfl, rfl, rfl,
      ⟨rfl, rfl, rfl, rfl, rfl, rfl, rfl, rfl, rfl, rfl, rfl⟩⟩
  have hbc : notices (P ++ b :: c :: Q) = notices ((P ++ [b]) ++ c :: Q) := by simp
  have hlast : b.last ∈ b.notices := by simp [Block.notices]
  have hother : ∀ x ∈ P ++ c :: Q, ∀ n ∈ x.notices, n ≠ b.last := by
    rintro x hx n hn rfl
    exact not_mem_other hnd hx hlast hn
  have hbl : ∀ n ∈ b.init, n ≠ b.last := by
    rintro n hn rfl
    rw [notices_append, notices_cons] at hnd
    exact (nodup_append.mp hnd.of_append_right).2.2 _ hn _ mem_cons_self rfl
  refine ⟨t, ht, ⟨fun x hx => ?_, ?_, ?_, ?_, ?_, h.indNodup, ?_, ?_, ?_⟩, hko⟩
  · have hcase : x ∈ P ++ Q ∨ x = ⟨c.key, b.init ++ b.last :: c.init, c.last⟩ := by
      simp only [mem_append, mem_cons] at hx ⊢
      tauto
    rcases hcase with hx | rfl
    · have hmem : x ∈ P ++ b :: c :: Q := by
        rcases mem_append.mp hx with hx | hx <;> simp [hx]
      have hmem' : x ∈ P ++ c :: Q := by
        rcases mem_append.mp hx with hx | hx <;> simp [hx]
      have hne : x.key ≠ c.key := by
        refine key_ne_other (P := P ++ [b]) (Q := Q) (by simpa using h.nodup) ?_
        rcases mem_append.mp hx with hx | hx <;> simp [hx]
      refine hko.blockOk (h.block x hmem) ⟨by rw [hkno], by rw [hkt], ?_⟩ fun n hn => ?_
      · rw [hkm, update_of_ne hne]
      · rw [hnk, update_of_ne (hother x hmem' n hn)]
    · have hnb := hb.numnote
      have hnc := hc.numnote
      have hcl := hother c (by simp)
      refine ⟨by rw [hkno]; exact hc.notice, by rw [hkt, hko.time]; exact hc.time, ?_, ?_, ?_,
        fun n hn => ?_⟩
      · rw [hkm, update_self]
        simp only [length_append, length_cons]
        omega
      · rw [hko.nlim]
        simp only [length_append, length_cons]
        omega
      · rw [hnk, update_of_ne (hcl _ (by simp [Block.notices]))]
        exact hc.back
      · rw [hnk, hko.isdummy]
        rcases mem_append.mp hn with hn | hn
        · rw [update_of_ne (hbl n hn)]
          exact hb.inner n hn
        · rcases mem_cons.mp hn with rfl | hn
          · exact ⟨update_self .., hreal⟩
          · rw [update_of_ne (hcl n (by simp [Block.notices, hn]))]
            exact hc.inner n hn
  · rw [hl, hr, hkeys']
    exact hd.self
  · rw [hkeys']
    rw [show keys P' ++ p.key :: b.key :: c.key :: keys Q =
      (keys P' ++ [p.key]) ++ b.key :: c.key :: keys Q by simp] at hkn
    simpa using (nodup_cons.mp (nodup_middle.mp hkn)).2
  · rw [hkeys', hko.avail]
    intro k hk
    refine h.avail k ?_
    rw [hkeys]
    simp only [mem_append, mem_cons] at hk ⊢
    tauto
  · rw [hko.ind, hko.index]
    exact h.index
  · rw [hko.avail]
    exact h.indAvail
  · have hk := hko.indKey (D := [⟨c.key, b.init ++ b.last :: c.init, c.last⟩]) hB hP (by
      have hbb : dummyBlock s b = false := hreal
      have hcc : dummyBlock s ⟨c.key, b.init ++ b.last :: c.init, c.last⟩ = dummyBlock s c := rfl
      simp only [filter_cons, filter_nil, hbb, hcc, Bool.false_eq_true, if_false]
      split <;> rfl)
    simpa using hk
  · simpa using hko.first (D := [⟨c.key, b.init ++ b.last :: c.init, c.last⟩]) hB hP

/-- **Merging** changes the sublists, not what is in them. -/
theorem Keyed.merge (h : Keyed s (P ++ b :: Q) I) (hnd : (notices (P ++ b :: Q)).Nodup)
    (hP : P ≠ []) (hQ : s.notice.isdummy b.last = false → Q ≠ []) :
    ∃ t B', s.merge b.key = some t ∧ Keyed t B' I ∧ notices B' = notices (P ++ b :: Q) ∧
      KeysOnly s t := by
  have hb := h.block b (by simp)
  obtain ⟨P', p, rfl⟩ := (eq_nil_or_concat' P).resolve_left hP
  have hp := h.block p (by simp)
  have hlink := h.linked
  have hkeys : keys (P' ++ [p] ++ b :: Q) = (keys P' ++ [p.key]) ++ b.key :: keys Q := by simp
  rw [hkeys] at hlink
  have hleft : s.key.left b.key = some p.key := by rw [hlink.prev_eq, List.getLast?_concat]
  have hrefl : KeysOnly s s := ⟨rfl, rfl, rfl, rfl, rfl, rfl, rfl, rfl, rfl, rfl, rfl⟩
  rw [El.merge, hleft, bind_some, hp.notice, hb.notice]
  split
  · -- the block to the left
    rename_i hc
    have hPne : P' ≠ [] := by
      rintro rfl
      obtain ⟨x, X, hx, -, hxd⟩ := h.first
      obtain ⟨rfl, -⟩ := List.cons.inj hx
      exact hc.1 hxd
    have hreal : s.notice.isdummy p.last = false := by simpa using hc.1
    have h' : Keyed s (P' ++ p :: b :: Q) I := by simpa using h
    obtain ⟨t, ht, hk, hko⟩ := h'.mergeKey (by simpa using hnd) hPne hreal (by omega)
    exact ⟨t, _, ht, hk, by simp, hko⟩
  · split
    · exact ⟨s, _, rfl, h, rfl, hrefl⟩
    · -- the block to the right
      rename_i hdum
      have hreal : s.notice.isdummy b.last = false := by simpa using hdum
      obtain ⟨c, Q', rfl⟩ := exists_cons_of_ne_nil (hQ hreal)
      have hright : s.key.right b.key = some c.key := by rw [hlink.next_eq]; rfl
      rw [hright, bind_some]
      split
      · rename_i hle
        obtain ⟨t, ht, hk, hko⟩ := h.mergeKey hnd hP hreal hle
        exact ⟨t, _, ht, hk, by simp, hko⟩
      · exact ⟨s, _, rfl, h, rfl, hrefl⟩

/-- A block that ends with an event is not the last one. -/
theorem Shape.behind (h : Shape s (P ++ b :: Q) I j) (hreal : s.notice.isdummy b.last = false) :
    Q ≠ [] := by
  obtain ⟨x, hx, hxd, hxt⟩ := h.infinity
  have hb := h.ordered.real b.last (last_mem_notices (by simp)) hreal
  have hsorted := h.ordered.sorted
  rw [notices_append, notices_cons] at hsorted
  rcases mem_append.mp (mem_of_mem_tail hx) with hx | hx
  · have hle := ((pairwise_append.mp hsorted).2.2 x.last (last_mem_notices hx) b.last
      (by simp)).1
    omega
  · rcases mem_cons.mp hx with rfl | hx
    · exact absurd (hxd.symm.trans hreal) (by decide)
    · exact ne_nil_of_mem hx

/-- Nor the first one. -/
theorem Shape.before (h : Shape s (P ++ b :: Q) I j) (hn : n ∈ b.notices)
    (hreal : s.notice.isdummy n = false) : P ≠ [] := by
  rintro rfl
  obtain ⟨x, X, hx, hinit, hxd⟩ := h.keyed.first
  obtain ⟨rfl, -⟩ := List.cons.inj hx
  rw [Block.notices, hinit, nil_append] at hn
  rw [mem_singleton.mp hn] at hreal
  exact absurd (hxd.symm.trans hreal) (by decide)

/-- The notices without one that is inside a block. -/
theorem erase_notices {A C : List ℕ} (hnd : (notices (P ++ b :: Q)).Nodup)
    (hb : b.notices = A ++ n :: C) :
    (notices (P ++ b :: Q)).erase n = notices P ++ (A ++ C) ++ notices Q := by
  have heq : notices (P ++ b :: Q) = (notices P ++ A) ++ n :: (C ++ notices Q) := by
    rw [notices_append, show notices (b :: Q) = b.notices ++ notices Q from rfl, hb]
    simp
  rw [heq] at hnd ⊢
  have hn : n ∉ notices P ++ A := fun hm =>
    (nodup_append.mp hnd).2.2 n hm n mem_cons_self rfl
  rw [erase_append_right _ hn, erase_cons_head]
  simp

/-- **A notice is taken out of its sublist.** -/
theorem Shape.dropFromKey (h : Shape s B I j) (hn : n ∈ notices B)
    (hreal : s.notice.isdummy n = false) :
    ∃ t B', s.dropFromKey n = some t ∧ Keyed t B' I ∧ notices B' = (notices B).erase n ∧
      KeysOnly s t := by
  obtain ⟨b, hb, hnb⟩ := mem_flatMap.mp hn
  obtain ⟨P, Q, rfl⟩ := append_of_mem hb
  have hP := h.before hnb hreal
  have hk := h.keyed
  have hbo := hk.block b hb
  have hnd := h.listed.nodup
  have hlink := h.listed.linked
  have hnum := hbo.numnote
  have hlim := hbo.limit
  have hndb : (b.init ++ [b.last]).Nodup := by
    have hnd := hnd
    rw [notices_append, show notices (b :: Q) = b.notices ++ notices Q from rfl] at hnd
    exact hnd.of_append_right.of_append_left
  have hother : ∀ c ∈ P ++ Q, ∀ m ∈ c.notices, ∀ x ∈ b.notices, m ≠ x := by
    rintro c hc m hm x hx rfl
    exact not_mem_other hnd hc hx hm
  rcases mem_append.mp hnb with hni | hnl
  · -- not the last of the sublist: the key is found to the right
    obtain ⟨l₁, l₂, hinit⟩ := append_of_mem hni
    have hbn : b.notices = l₁ ++ n :: (l₂ ++ [b.last]) := by simp [Block.notices, hinit]
    have hN : notices (P ++ b :: Q) = (notices P ++ l₁) ++ (n :: l₂) ++ (b.last :: notices Q) := by
      simp [hinit]
    have hinner : ∀ m ∈ n :: l₂, s.notice.key m = none := fun m hm =>
      (hbo.inner m (by rw [hinit]; exact mem_append_right _ hm)).1
    have hseek : seek s.notice.right (fun m => s.notice.key m = none) s.cells (some n) =
        some b.last := by
      have hl := hlink
      rw [hN, append_assoc] at hl
      have hlen : (n :: l₂ ++ b.last :: notices Q).length ≤ s.cells := by
        have hle := h.listed.length_le
        rw [hN, append_assoc, length_append] at hle
        omega
      have hsk := hl.suffix.seek_eq (c := fun m => s.notice.key m = none) hlen
      rw [cons_append, List.head?_cons, ← cons_append] at hsk
      rw [hsk, List.find?_append, List.find?_eq_none.mpr fun m hm => by simp [hinner m hm],
        none_or, List.find?_cons, hbo.back]
      rfl
    have hkw := hk.decrement hP hinit
    have hwko := KeysOnly.setNumnote s b.key (s.key.numnote b.key - 1)
    have herase := erase_notices hnd hbn
    have hnot : notices (P ++ ⟨b.key, l₁ ++ l₂, b.last⟩ :: Q) = (notices (P ++ b :: Q)).erase n := by
      rw [herase]
      simp
    obtain ⟨t, B', ht, hkt, hNt, hko⟩ := hkw.merge (by rw [hnot]; exact hnd.erase n) hP
      fun hd => h.behind (by rw [hwko.isdummy] at hd; exact hd)
    refine ⟨t, B', ?_, hkt, hNt.trans hnot, hwko.trans hko⟩
    rw [El.dropFromKey, (hbo.inner n hni).1]
    dsimp only
    rw [hseek, bind_some, hbo.back, bind_some, El.shrink]
    exact ht
  · obtain rfl := mem_singleton.mp hnl
    rcases eq_nil_or_concat' b.init with hinit | ⟨l, x, hinit⟩
    · -- the only one
      obtain ⟨t, ht, hkt, hko⟩ := hk.unlinkKey hP (h.behind hreal) hreal (s.key.numnote b.key)
      rw [show setNumnote s b.key (s.key.numnote b.key) = s by
        unfold setNumnote; rw [update_eq_self]] at ht
      have herase := erase_notices (n := b.last) hnd (A := []) (C := []) (by simp [Block.notices, hinit])
      refine ⟨t, P ++ Q, ?_, hkt, by rw [herase]; simp, hko⟩
      rw [El.dropFromKey, hbo.back]
      dsimp only
      rw [if_pos (by rw [hnum, hinit]; rfl)]
      exact ht
    · -- the last of several
      have hbn : b.notices = (l ++ [x]) ++ b.last :: [] := by simp [Block.notices, hinit]
      have hleft : s.notice.left b.last = some x := by
        have hl := hlink
        rw [show notices (P ++ b :: Q) = (notices P ++ l ++ [x]) ++ b.last :: notices Q by
          simp [hinit]] at hl
        rw [hl.prev_eq, List.getLast?_concat]
      have hxb : x ∈ b.notices := by simp [Block.notices, hinit]
      have hbx := hbo.inner x (by simp [hinit])
      have hlx : ∀ m ∈ l, m ≠ x := by
        rintro m hm rfl
        rw [hinit] at hndb
        exact (nodup_append.mp hndb.of_append_left).2.2 m hm m mem_cons_self rfl
      have hlen := congrArg List.length hinit
      rw [length_append, length_cons, length_nil] at hlen
      obtain ⟨w, hw, hwko, hwl, hwr, hwt, hwn, hwm, hwk⟩ : ∃ w, ((s.moveLast b.last b.key).bind
          fun s => s.shrink b.key) = w.merge b.key ∧ KeysOnly s w ∧
          w.key.left = s.key.left ∧ w.key.right = s.key.right ∧
          w.key.time = update s.key.time b.key (s.notice.time x) ∧
          w.key.notice = update s.key.notice b.key x ∧
          w.key.numnote = update s.key.numnote b.key (s.key.numnote b.key - 1) ∧
          w.notice.key = update s.notice.key x (some b.key) := by
        have hm := El.moveLast.eq_def s b.last b.key
        rw [hleft, map_some] at hm
        rw [hm, bind_some, El.shrink]
        exact ⟨_, rfl, ⟨rfl, rfl, rfl, rfl, rfl, rfl, rfl, rfl, rfl, rfl, rfl⟩, rfl, rfl, rfl, rfl,
          rfl, rfl⟩
      have hkw : Keyed w (P ++ ⟨b.key, l, x⟩ :: Q) I := by
        refine hk.replace hP hwko ⟨?_, ?_, ?_, ?_, ?_, fun m hm => ?_⟩ rfl (hbx.2.trans hreal.symm)
          hwl hwr (fun k hne => ⟨?_, ?_, ?_⟩) fun c hc m hm => ?_
        · rw [hwn, update_self]
        · rw [hwt, update_self, hwko.time]
        · rw [hwm, update_self]
          dsimp only
          omega
        · rw [hwko.nlim]
          dsimp only
          omega
        · rw [hwk, update_self]
        · rw [hwk, update_of_ne (hlx m hm), hwko.isdummy]
          refine hbo.inner m ?_
          rw [hinit]
          exact mem_append_left _ hm
        · rw [hwn, update_of_ne hne]
        · rw [hwt, update_of_ne hne]
        · rw [hwm, update_of_ne hne]
        · rw [hwk, update_of_ne (hother c hc m hm x hxb)]
      have herase := erase_notices hnd hbn
      have hnot : notices (P ++ ⟨b.key, l, x⟩ :: Q) = (notices (P ++ b :: Q)).erase b.last := by
        rw [herase]
        simp
      obtain ⟨t, B', ht, hkt, hNt, hko⟩ := hkw.merge (by rw [hnot]; exact hnd.erase _) hP
        fun _ => h.behind hreal
      refine ⟨t, B', ?_, hkt, hNt.trans hnot, hwko.trans hko⟩
      rw [El.dropFromKey, hbo.back]
      dsimp only
      rw [if_neg (by omega), hw]
      exact ht

end keys

/-! ## The loop -/

/-- Neither the events nor what is known of them differs. -/
structure SameEvents (s t : El) : Prop where
  time : t.notice.time = s.notice.time
  id : t.notice.id = s.notice.id
  event : t.notice.event = s.notice.event
  isdummy : t.notice.isdummy = s.notice.isdummy
  index : t.index = s.index
  current : t.current = s.current
  avail : t.avail = s.avail
  params : params t = params s

/-- The notice is that of an event with the identifier. -/
def matching (s : El) (id : ℤ) (n : ℕ) : Bool := !s.notice.isdummy n && s.notice.id n = id

/-- What is left of a list of notices. -/
def rest (s : El) (id : ℤ) (flag : Bool) (N : List ℕ) : List ℕ :=
  if flag then N.eraseP (matching s id) else N.filter fun n => !matching s id n

section loop

variable {s t u : El} {I N N₁ N₂ : List ℕ} {B : List Block} {j m n : ℕ} {id : ℤ} {flag : Bool}

theorem SameEvents.trans (h : SameEvents s t) (h' : SameEvents t u) : SameEvents s u :=
  ⟨h'.time.trans h.time, h'.id.trans h.id, h'.event.trans h.event, h'.isdummy.trans h.isdummy,
    h'.index.trans h.index, h'.current.trans h.current, h'.avail.trans h.avail,
    h'.params.trans h.params⟩

theorem SameEvents.rest (h : SameEvents s t) (N : List ℕ) : rest t id flag N = rest s id flag N := by
  unfold Elm.rest matching
  rw [h.isdummy, h.id]

/-- The notice of an event is neither the first nor the last one. -/
theorem Shape.inside (h : Shape s B I j) (hN : notices B = N₁ ++ n :: N₂)
    (hreal : s.notice.isdummy n = false) : N₁ ≠ [] ∧ N₂ ≠ [] := by
  constructor
  · rintro rfl
    obtain ⟨b, B', rfl, hinit, hd⟩ := h.keyed.first
    rw [notices_cons, hinit] at hN
    obtain ⟨rfl, -⟩ := List.cons.inj hN
    exact absurd (hd.symm.trans hreal) (by decide)
  · rintro rfl
    obtain ⟨x, hx, hxd, hxt⟩ := h.infinity
    have hxN := last_mem_notices (mem_of_mem_tail hx)
    have hn := h.ordered.real n (by rw [hN]; simp) hreal
    have hsorted := h.ordered.sorted
    rw [hN] at hsorted hxN
    rcases mem_append.mp hxN with hx | hx
    · have := ((pairwise_append.mp hsorted).2.2 x.last hx n mem_cons_self).1
      omega
    · have hxd : s.notice.isdummy x.last = true := hxd
      rw [mem_singleton.mp hx] at hxd
      exact absurd (hxd.symm.trans hreal) (by decide)

/-- The order without the notice of an event. -/
theorem Ordered.remove (h : Ordered s (N₁ ++ n :: N₂) j) (hreal : s.notice.isdummy n = false) :
    Ordered s (N₁ ++ N₂) j := by
  have hsub : (N₁ ++ N₂).Sublist (N₁ ++ n :: N₂) := (sublist_cons_self n N₂).append_left N₁
  refine ⟨h.sorted.sublist hsub, ?_, fun x hx => h.real x (hsub.subset hx)⟩
  rw [← h.ends, filter_append, filter_append, filter_cons, hreal]
  rfl

/-- A notice is taken out of the list of notices, when it is in no sublist. -/
theorem Shape.unlinkNotice {B' : List Block} (h : Shape s B I j) (hko : KeysOnly s t)
    (hk : Keyed t B' I) (hN : notices B = N₁ ++ n :: N₂) (hN' : notices B' = N₁ ++ N₂)
    (hreal : s.notice.isdummy n = false) :
    ∃ u, t.unlinkNotice n = some u ∧ Shape u B' I j ∧ u.notice.right n = N₂.head? ∧
      SameEvents s u := by
  obtain ⟨h₁, h₂⟩ := h.inside hN hreal
  have hlink := h.listed.linked
  have hnd := h.listed.nodup
  rw [← hko.left, ← hko.right] at hlink
  have hnext : t.notice.right n = N₂.head? := by
    rw [hN] at hlink
    exact hlink.next_eq
  rw [hN] at hlink hnd
  obtain ⟨right, left, hun, hd, hrn, -⟩ := hlink.unlink hnd h₁ h₂
  obtain ⟨u, hu, hul, hur, huk, hkey, hind, hse⟩ : ∃ u, t.unlinkNotice n = some u ∧
      u.notice.left = left ∧ u.notice.right = right ∧ u.notice.key = t.notice.key ∧ u.key = t.key ∧
      u.ind = t.ind ∧ SameEvents t u :=
    ⟨{ t with notice.right := right, notice.left := left }, by rw [El.unlinkNotice, hun]; rfl, rfl,
      rfl, rfl, rfl, rfl, ⟨rfl, rfl, rfl, rfl, rfl, rfl, rfl, rfl⟩⟩
  have hst : SameEvents s t := ⟨hko.time, hko.id, hko.event, hko.isdummy, hko.index, hko.current,
    hko.avail, hko.params⟩
  have hsu := hst.trans hse
  have hnd' : (N₁ ++ N₂).Nodup := (nodup_cons.mp (nodup_middle.mp hnd)).2
  have hmem : ∀ x ∈ N₁ ++ N₂, x ∈ notices B := fun x hx => by
    rw [hN]
    rcases mem_append.mp hx with hx | hx <;> simp [hx]
  have hord : Ordered s (N₁ ++ N₂) j := (hN ▸ h.ordered).remove hreal
  have hNLIM : u.NLIM = s.NLIM := by
    have hp := hsu.params
    simp only [params, Prod.mk.injEq] at hp
    exact hp.2.2.2
  refine ⟨u, hu, ⟨hk.congr hse.params hkey hind hse.index (Nat.le_of_eq hse.avail.symm)
    fun x _ => ⟨by rw [hse.time], by rw [hse.isdummy], by rw [huk]⟩, ⟨?_, ?_, ?_⟩, ?_, h.pos,
    hNLIM ▸ h.nlim⟩, ?_, hsu⟩
  · rw [hul, hur, hN']
    exact hd.self
  · rw [hN']
    exact hnd'
  · rw [hN', hsu.avail]
    exact fun x hx => h.listed.avail x (hmem x hx)
  · rw [hN']
    exact hord.congr hsu.params fun x _ => ⟨by rw [hsu.time], by rw [hsu.isdummy]⟩
  · rw [hur, hrn, hnext]

/-- One turn. -/
theorem Shape.removeNotice (h : Shape s B I j) (hN : notices B = N₁ ++ n :: N₂)
    (hreal : s.notice.isdummy n = false) :
    ∃ t u B', s.dropFromKey n = some t ∧ t.unlinkNotice n = some u ∧ Shape u B' I j ∧
      notices B' = N₁ ++ N₂ ∧ u.notice.right n = N₂.head? ∧ SameEvents s u := by
  obtain ⟨t, B', ht, hk, hN', hko⟩ := h.dropFromKey (n := n) (by rw [hN]; simp) hreal
  have herase : notices B' = N₁ ++ N₂ := by
    have hnd := h.listed.nodup
    rw [hN] at hnd
    have hn : n ∉ N₁ := fun hm => (nodup_append.mp hnd).2.2 n hm n mem_cons_self rfl
    rw [hN', hN, erase_append_right _ hn, erase_cons_head]
  obtain ⟨u, hu, hsh, hright, hse⟩ := h.unlinkNotice hko hk hN herase hreal
  exact ⟨t, u, B', ht, hu, hsh, herase, hright, hse⟩

/-- **The loop** removes all notices with the identifier, or the first. -/
theorem Shape.removeLoop (id : ℤ) (flag : Bool) (m : ℕ) :
    ∀ {s : El} {B : List Block} {N₁ N₂ : List ℕ}, Shape s B I j →
    notices B = N₁ ++ N₂ → N₂.length < m →
    ∃ t B', El.removeLoop id flag m s N₂.head? = some t ∧ Shape t B' I j ∧
      notices B' = N₁ ++ rest s id flag N₂ ∧ SameEvents s t := by
  induction m with
  | zero => exact fun _ _ hm => absurd hm (Nat.not_lt_zero _)
  | succ m ih =>
    intro s B N₁ N₂ h hN hm
    have hlen : N₂.length ≤ s.cells := by
      have hle := h.listed.length_le
      rw [hN, length_append] at hle
      omega
    have hlink := h.listed.linked
    rw [hN] at hlink
    have hskip := hlink.suffix.skip_eq (c := fun n => s.notice.isdummy n ∨ s.notice.id n ≠ id) hlen
    have hpred : (fun n => !decide (s.notice.isdummy n = true ∨ s.notice.id n ≠ id)) =
        matching s id := by
      funext n
      unfold matching
      cases s.notice.isdummy n <;> by_cases hid : s.notice.id n = id <;> simp [hid]
    rw [hpred] at hskip
    rw [El.removeLoop, hskip, bind_some]
    cases hf : N₂.find? (matching s id) with
    | none =>
      have hno : ∀ x ∈ N₂, matching s id x = false := fun x hx => by
        simpa using List.find?_eq_none.mp hf x hx
      refine ⟨s, B, rfl, h, ?_, ⟨rfl, rfl, rfl, rfl, rfl, rfl, rfl, rfl⟩⟩
      rw [hN]
      unfold Elm.rest
      split
      · rw [eraseP_of_forall_not fun x hx => by simp [hno x hx]]
      · rw [filter_eq_self.mpr fun x hx => by simp [hno x hx]]
    | some n =>
      obtain ⟨hn, as, bs, hsplit, has⟩ := List.find?_eq_some_iff_append.mp hf
      have has : ∀ x ∈ as, matching s id x = false := fun x hx => by simpa using has x hx
      have hreal : s.notice.isdummy n = false := by
        simp only [matching, Bool.and_eq_true, Bool.not_eq_true'] at hn
        exact hn.1
      have hN' : notices B = (N₁ ++ as) ++ n :: bs := by rw [hN, hsplit]; simp
      obtain ⟨t, u, B', ht, hu, hsh, hNu, hright, hse⟩ := h.removeNotice hN' hreal
      dsimp only
      rw [ht, bind_some, hu, bind_some]
      split
      · rename_i hflag
        refine ⟨u, B', rfl, hsh, ?_, hse⟩
        rw [hNu, hsplit, Elm.rest, if_pos hflag,
          eraseP_append_right _ fun x hx => by simp [has x hx], eraseP_cons, hn]
        simp
      · rename_i hflag
        rw [hright]
        have hless : bs.length < m := by
          have := congrArg List.length hsplit
          rw [length_append, length_cons] at this
          omega
        obtain ⟨v, B'', hv, hsv, hNv, hsev⟩ := ih hsh hNu hless
        refine ⟨v, B'', hv, hsv, ?_, hse.trans hsev⟩
        have hkeep : as.filter (fun n => !matching s id n) = as :=
          filter_eq_self.mpr fun x hx => by simp [has x hx]
        rw [hNv, hse.rest, hsplit]
        unfold Elm.rest
        rw [if_neg hflag, if_neg hflag, filter_append, hkeep]
        simp [hn]

/-! ## The whole routine -/

/-- The end of `el_remove` finds the first event, if one is left. -/
theorem Shape.resetCurrent (h : Shape s B I j) (hne : real s (notices B) ≠ []) :
    ∃ t, s.resetCurrent = some t ∧ Rep t B I j ∧ queue t B = queue s B ∧ params t = params s := by
  obtain ⟨hk, hN⟩ : Keyed s B I ∧ Listed s (notices B) := ⟨h.keyed, h.listed⟩
  obtain ⟨x, hx, hxd, -⟩ := h.infinity
  have hxi : x.key ∈ I.map s.ind.key := by
    rw [hk.indKey]
    exact mem_map_of_mem (mem_filter.mpr ⟨hx, hxd⟩)
  obtain ⟨i, I', rfl⟩ : ∃ i I', I = i :: I' := by
    refine exists_cons_of_ne_nil ?_
    rintro rfl
    exact absurd hxi not_mem_nil
  -- the key of the first interval, and those before it
  have hik : s.ind.key i ∈ (i :: I').map s.ind.key := mem_map_of_mem mem_cons_self
  rw [hk.indKey] at hik
  obtain ⟨d, hd, hdk⟩ := mem_map.mp hik
  obtain ⟨b, B', rfl, hinit, hdum⟩ := hk.first
  obtain ⟨P, Q, hB'⟩ := append_of_mem (mem_filter.mp hd).1
  rw [tail_cons] at hB'
  have hlink := hk.linked
  have hkeys : keys (b :: B') = (b.key :: keys P) ++ d.key :: keys Q := by rw [hB']; simp
  rw [hkeys] at hlink
  have hleft : s.key.left (s.ind.key i) = (b.key :: keys P).getLast? := by
    rw [← hdk]; exact hlink.prev_eq
  have hlen : (b.key :: keys P).reverse.length ≤ s.cells := by
    have hle := hk.length_le
    rw [hkeys, length_append] at hle
    rw [length_reverse]
    omega
  have hfirst : s.key.left b.key = none := by
    have hl : Doubly s.key.right s.key.left _ _ ([] ++ b.key :: (keys P ++ d.key :: keys Q)) := hlink
    exact hl.prev_eq
  have hseek : seek s.key.left (fun k => (s.key.left k).isSome) s.cells
      (s.key.left (s.ind.key i)) = some b.key := by
    rw [hleft, hlink.back.seek_eq hlen, show b.key :: keys P = [b.key] ++ keys P from rfl,
      reverse_append, List.find?_append, List.find?_eq_none.mpr, none_or]
    · simp [hfirst]
    · intro k hkm
      obtain ⟨l₁, l₂, hl⟩ := append_of_mem (mem_reverse.mp hkm)
      have hl' := hlink
      rw [show b.key :: keys P ++ d.key :: keys Q = (b.key :: l₁) ++ k :: (l₂ ++ d.key :: keys Q) by
        rw [hl]; simp] at hl'
      rw [hl'.prev_eq, List.getLast?_cons]
      simp
  -- the first event behind the first dummy notice
  have hb := hk.block b mem_cons_self
  have hNb : notices (b :: B') = [b.last] ++ notices B' := by simp [hinit]
  have hlinkN := hN.linked
  have hrealB : real s (notices (b :: B')) = real s (notices B') := by
    rw [hNb]
    simp [real, hdum]
  have hlenN : (notices B').length ≤ s.cells := by
    have hle := hN.length_le
    rw [hNb, length_append] at hle
    omega
  rw [hrealB] at hne
  obtain ⟨c, cs, hc⟩ := exists_cons_of_ne_nil hne
  have hright : s.notice.right (s.key.notice b.key) = (notices B').head? := by
    rw [hb.notice]
    have hl : Linked s.notice.right (some b.last) (b.last :: notices B') := by
      rw [hNb] at hlinkN
      exact hlinkN.next_linked
    exact hl.2.head?
  have hseekN : seek s.notice.right s.notice.isdummy s.cells
      (s.notice.right (s.key.notice b.key)) = some c := by
    rw [hNb] at hlinkN
    rw [hright, hlinkN.suffix.seek_eq hlenN, ← List.head?_filter]
    exact (congrArg List.head? hc).trans rfl
  have hidx : s.index = some i := hk.index.1
  obtain ⟨t, ht, htc, htn, htk, hti, htx, hta, htp⟩ : ∃ t, s.resetCurrent = some t ∧
      t.current = some c ∧ t.notice = s.notice ∧ t.key = s.key ∧ t.ind = s.ind ∧
      t.index = s.index ∧ t.avail = s.avail ∧ params t = params s := by
    have hr := El.resetCurrent.eq_def s
    rw [hidx, bind_some, hseek, bind_some, hseekN, map_some] at hr
    exact ⟨_, hr, rfl, rfl, rfl, rfl, hidx ▸ rfl, rfl, rfl⟩
  have hNLIM : t.NLIM = s.NLIM := by
    simp only [params, Prod.mk.injEq] at htp
    exact htp.2.2.2
  have hrt : real t (notices (b :: B')) = real s (notices (b :: B')) :=
    real_congr fun n _ => by rw [htn]
  refine ⟨t, ht, ⟨⟨hk.congr htp htk hti htx (Nat.le_of_eq hta.symm) fun n _ => by simp [htn],
    ⟨by rw [htn]; exact hN.linked, hN.nodup, by rw [hta]; exact hN.avail⟩,
    h.ordered.congr htp fun n _ => by simp [htn], h.pos, hNLIM ▸ h.nlim⟩, ?_⟩, ?_, htp⟩
  · rw [hrt, hrealB, hc, htc]
    rfl
  · exact queue_congr (by rw [htn]) (by rw [htn]) (by rw [htn]) (by rw [htn])

/-- Removing notices removes their events. -/
theorem queue_rest (N : List ℕ) : (real s (rest s id flag N)).map (event s) =
    Queue.remove id flag ((real s N).map (event s)) := by
  have hm : ∀ n, s.notice.isdummy n = false → matching s id n = decide ((event s n).id = id) :=
    fun n hn => by
      rw [matching, hn]
      exact (Bool.true_and _).trans (decide_eq_decide.mpr Iff.rfl)
  induction N with
  | nil => cases flag <;> rfl
  | cons n N ih =>
    unfold rest Queue.remove real at ih ⊢
    cases hd : s.notice.isdummy n with
    | true =>
      have hnm : matching s id n = false := by simp [matching, hd]
      cases flag with
      | true => simpa [eraseP_cons, hnm, hd] using ih
      | false => simpa [hnm, hd] using ih
    | false =>
      have hnm := hm n hd
      cases flag with
      | true =>
        by_cases hid : (event s n).id = id
        · simp [hnm, hd, hid]
        · simpa [eraseP_cons, hnm, hd, hid] using ih
      | false =>
        by_cases hid : (event s n).id = id
        · simpa [hnm, hd, hid] using ih
        · simpa [hnm, hd, hid] using ih

/-- **`el_remove` removes the events with the identifier, or the first of them**, when one event is
left or there was none. -/
theorem Rep.el_remove (h : Rep s B I j)
    (hleft : queue s B = [] ∨ Queue.remove id flag (queue s B) ≠ []) :
    ∃ t B', s.el_remove id flag = some t ∧ Rep t B' I j ∧
      queue t B' = Queue.remove id flag (queue s B) ∧ params t = params s := by
  cases hr : real s (notices B) with
  | nil =>
    have hq : queue s B = [] := by rw [queue, hr]; rfl
    have hc := h.current
    rw [hr] at hc
    refine ⟨s, B, ?_, h, ?_, rfl⟩
    · rw [El.el_remove, if_pos (.inr hc)]
    · rw [hq]
      cases flag <;> rfl
  | cons c cs =>
    have hc := h.current
    rw [hr] at hc
    have hfind : (notices B).find? (fun n => !s.notice.isdummy n) = some c := by
      rw [← List.head?_filter]
      exact (congrArg List.head? hr).trans rfl
    obtain ⟨hcd, N₁, N₂, hN, hd⟩ := List.find?_eq_some_iff_append.mp hfind
    have hreal₁ : real s N₁ = [] := filter_eq_nil_iff.mpr fun n hn => by simpa using hd n hn
    have hlen : (c :: N₂).length < s.cells + 1 := by
      have hle := h.listed.length_le
      rw [hN, length_append] at hle
      omega
    obtain ⟨t, B', ht, hsh, hNt, hse⟩ := h.toShape.removeLoop id flag (s.cells + 1) hN hlen
    have hrt : ∀ L, real t L = real s L := fun L => real_congr fun n _ => by rw [hse.isdummy]
    have het : event t = event s := by
      funext n
      simp only [event, hse.time, hse.id, hse.event]
    have hqt : queue t B' = Queue.remove id flag (queue s B) := by
      have happ : ∀ L M, real s (L ++ M) = real s L ++ real s M := fun L M => filter_append ..
      rw [queue, queue, hrt, het, hNt, hN, happ, happ, hreal₁, nil_append, nil_append,
        queue_rest]
    have hq : queue s B ≠ [] := by rw [queue, hr]; exact cons_ne_nil _ _
    have hne : real t (notices B') ≠ [] := by
      intro he
      refine hleft.resolve_left hq ?_
      rw [← hqt, queue, he]
      rfl
    obtain ⟨u, hu, hrep, hqu, hpu⟩ := hsh.resetCurrent hne
    refine ⟨u, B', ?_, hrep, hqu.trans hqt, hpu.trans hse.params⟩
    have hidx : s.index ≠ none := by
      intro hn
      rw [← hse.index] at hn
      rw [El.resetCurrent, hn] at hu
      cases hu
    rw [El.el_remove, if_neg (by rw [not_or, hc]; exact ⟨hidx, by simp⟩), hc]
    exact (congrArg (fun o => Option.bind o El.resetCurrent) ht).trans hu

end loop

end Cmd.Elm
