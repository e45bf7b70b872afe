import OpusSysV.Io.MsgStep
import OpusSysV.Os.MapHistory

/-!
# Message queue accounting

* `TextsOk` — the free extents of `msgmap` and the segments of the headers, with what
  overflows have lost, divide the pool; `TextsOk.change` keeps it.
* `msg_accounting` — in every state reached, with a map of `msgtql + 3` entries: headers,
  counts, byte sums and segments.
* `go_isSome` — no process is stuck in a search, or in a panic.
-/

namespace Io

open Lib Function List Option

/-- A list whose elements are mapped to ranges, when one more element gets a range. -/
theorem perm_filterMap {α β : Type*} {f g : α → Option β} {l : List α} {a : α} {e : β}
    (hl : l.Nodup) (ha : a ∈ l) (hg : ∀ b, b ≠ a → g b = f b) (hf : f a = none)
    (hga : g a = some e) : (l.filterMap g).Perm (e :: l.filterMap f) := by
  induction l with
  | nil => cases ha
  | cons b l ih =>
    obtain ⟨hb, hl⟩ := nodup_cons.mp hl
    by_cases hba : b = a
    · subst hba
      have hrest : l.filterMap g = l.filterMap f := by
        apply filterMap_congr
        intro c hc
        apply hg
        rintro rfl
        exact hb hc
      rw [filterMap_cons_some hga, filterMap_cons_none hf, hrest]
    · have ih := ih hl ((mem_cons.mp ha).resolve_left fun h => hba h.symm)
      cases hfb : f b with
      | none =>
        rw [filterMap_cons_none hfb, filterMap_cons_none ((hg b hba).trans hfb)]
        exact ih
      | some c =>
        rw [filterMap_cons_some hfb, filterMap_cons_some ((hg b hba).trans hfb)]
        exact (ih.cons c).trans (List.Perm.swap e c _)

/-- The pool of segments. -/
def MsgInfo.pool (cfg : MsgInfo) : Extent := ⟨1, cfg.msgseg⟩

/-- The segments of all headers. -/
def Texts.out (cfg : MsgInfo) (x : Texts) : List Extent :=
  (List.range cfg.msgtql).filterMap x.seg

/-- The free extents and the segments of the headers divide the pool, but for the ranges `gone`
that overflows have lost; a large map loses none. -/
def TextsOk (cfg : MsgInfo) (x : Texts) : Prop :=
  ∃ gone, Os.Conserves cfg.pool (Os.mapinit cfg.msgmap).mapsize ⟨x.map, x.out cfg ++ gone⟩ ∧
    (cfg.msgtql + 3 ≤ cfg.msgmap → gone = [] ∧ x.lost = 0)

section texts

variable {cfg : MsgInfo} {x y : Texts} {mp : ℕ} {e : Extent}

theorem pool_stop : cfg.pool.stop ≤ Os.wordSize := by
  have := cfg.seg_lt
  show 1 + cfg.msgseg ≤ 2 ^ 32
  omega

theorem length_out : (x.out cfg).length ≤ cfg.msgtql := by
  have := length_filterMap_le x.seg (List.range cfg.msgtql)
  rwa [length_range] at this

/-- What holds of the map holds of one with the same entries. -/
theorem represents_congr {n : ℕ} {m m' : Os.RMap} {l : List Extent} (h : Os.Represents n m l)
    (hm : m'.mapsize = m.mapsize ∧ m'.slots = m.slots) : Os.Represents n m' l :=
  ⟨hm.2.trans h.slots, by rw [hm.1]; exact h.mapsize, h.fits, h.coalesced, h.addrs⟩

theorem TextsOk.same (h : TextsOk cfg x)
    (hm : y.map.mapsize = x.map.mapsize ∧ y.map.slots = x.map.slots) (hlost : y.lost = x.lost)
    (hseg : y.seg = x.seg) : TextsOk cfg y := by
  obtain ⟨gone, ⟨l, hrep, hdiv⟩, hgone⟩ := h
  refine ⟨gone, ⟨l, represents_congr hrep hm, ?_⟩, fun hc => ?_⟩
  · unfold Texts.out at hdiv ⊢
    rw [hseg]
    exact hdiv
  · rw [hlost]
    exact hgone hc

/-- `malloc` finds nothing only by leaving the map as it is. -/
theorem malloc_zero {n size : ℕ} {m m' : Os.RMap} {l : List Extent} (h : Os.Represents n m l)
    (hm : Os.malloc m size = some (0, m')) : m' = m := by
  rcases Nat.eq_zero_or_pos size with rfl | hsize
  · rw [Os.malloc, if_pos rfl] at hm
    cases hm
    rfl
  · rcases Os.malloc_refines h hsize with ⟨-, heq⟩ | ⟨a, l', mp', ha, heq, -⟩
    · rw [heq] at hm
      cases hm
      rfl
    · rw [heq] at hm
      cases hm
      obtain ⟨f, hf, hbase, -⟩ := mem_of_allocFirst ha
      have := (h.addrs f hf).1
      omega

theorem TextsOk.took {size spot : ℕ} (h : TextsOk cfg x) (hmp : mp < cfg.msgtql)
    (hnone : x.seg mp = none) (hspot : spot ≠ 0)
    (hm : Os.malloc x.map size = some (spot, y.map)) (hlost : y.lost = x.lost)
    (hseg : y.seg = update x.seg mp (some ⟨spot, size⟩)) : TextsOk cfg y := by
  obtain ⟨gone, ⟨l, hrep, hdiv⟩, hgone⟩ := h
  have hsize : 0 < size := by
    rcases Nat.eq_zero_or_pos size with rfl | hsize
    · rw [Os.malloc, if_pos rfl] at hm
      exact absurd (Prod.mk.inj (Option.some.inj hm)).1.symm hspot
    · exact hsize
  have hperm : (y.out cfg).Perm (⟨spot, size⟩ :: x.out cfg) := by
    refine perm_filterMap nodup_range (mem_range.mpr hmp) (fun b hb => ?_) hnone ?_
    · rw [hseg, update_of_ne hb]
    · rw [hseg, update_self]
  rcases Os.malloc_refines hrep hsize with ⟨-, heq⟩ | ⟨a, l', mp', ha, heq, hrep', -⟩
  · rw [heq] at hm
    exact absurd (Prod.mk.inj (Option.some.inj hm)).1.symm hspot
  · rw [heq] at hm
    obtain ⟨rfl, hmap⟩ := Prod.mk.inj (Option.some.inj hm)
    refine ⟨gone, ⟨l', by rw [← hmap]; exact hrep', ?_⟩, fun hc => ?_⟩
    · exact (hdiv.take hrep.coalesced hsize ha).perm (hperm.symm.append_right gone)
    · rw [hlost]
      exact hgone hc

theorem TextsOk.gave {r : Os.RMap × Os.Mfree} (h : TextsOk cfg x) (hmp : mp < cfg.msgtql)
    (hsome : x.seg mp = some e) (hr : Os.mfree x.map e.len e.base = some r) (hm : y.map = r.1)
    (hlost : y.lost = x.lost + if r.2 = .overflow then 1 else 0)
    (hseg : y.seg = update x.seg mp none) : TextsOk cfg y := by
  obtain ⟨gone, ⟨l, hrep, hdiv⟩, hgone⟩ := h
  have hperm : (x.out cfg).Perm (e :: y.out cfg) := by
    refine perm_filterMap nodup_range (mem_range.mpr hmp) (fun b hb => ?_) ?_ hsome
    · rw [hseg, update_of_ne hb]
    · rw [hseg, update_self]
  have hdiv : Os.Divides cfg.pool l (e :: (y.out cfg ++ gone)) :=
    hdiv.perm (hperm.append_right gone)
  obtain ⟨hpos, hbase, hstop, hout⟩ := hdiv.outstanding Nat.one_pos pool_stop mem_cons_self
  have hgive := hdiv.give mem_cons_self
  rw [erase_cons_head] at hgive
  rcases Os.mfree_refines hrep hpos hbase hstop hout with ⟨m', heq, hrep', -⟩ | ⟨heq, h0, hlen⟩
  · rw [heq] at hr
    cases hr
    refine ⟨gone, ⟨release e l, by rw [hm]; exact hrep', hgive⟩, fun hc => ?_⟩
    rw [hlost]
    exact hgone hc
  · rw [heq] at hr
    cases hr
    refine ⟨e :: gone, ⟨l, by rw [hm]; exact hrep, hdiv.perm perm_middle.symm⟩, fun hc => ?_⟩
    -- with a large map the free extents could not use up its entries
    obtain ⟨rfl, -⟩ := hgone hc
    have h1 := hgive.length_le (hrep.coalesced.release hpos hout)
    have h2 := hperm.length_eq
    have h3 : (x.out cfg).length ≤ cfg.msgtql := length_out
    have h4 := hrep.mapsize
    have h5 := (Os.represents_mapinit cfg.map_ge cfg.map_lt).1
    have h6 : x.map.mapsize = 0 := h0
    have h7 : x.map.mapsize + l.length = (Os.mapinit cfg.msgmap).mapsize := h4
    rw [append_nil] at h1
    rw [length_cons] at h2
    omega

/-- **A step keeps the segments apart.** -/
theorem TextsOk.change (h : TextsOk cfg x) (hc : Texts.Change cfg x y) : TextsOk cfg y := by
  induction hc with
  | same hmap hlost hseg => exact h.same hmap hlost hseg
  | failed size m hm hmap hlost hseg =>
    obtain ⟨gone, ⟨l, hrep, -⟩, -⟩ := id h
    rw [malloc_zero hrep hm] at hmap
    exact h.same hmap hlost hseg
  | took mp size spot hmp hnone hspot hmap hlost hseg =>
    exact h.took hmp hnone hspot hmap hlost hseg
  | gave mp e r hmp hsome hr hmap hlost hseg => exact h.gave hmp hsome hr hmap hlost hseg
  | trans _ _ ih₁ ih₂ => exact ih₂ (ih₁ h)

end texts

/-! ## Runs -/

section runs

open MsgState

variable {cfg : MsgInfo} {s t : MsgState} {fl : List ℕ} {ql : ℕ → List ℕ} {loc : ℕ → Option Place}
  {p h : ℕ} {e : Extent}

/-- What `msginit` leaves in the map. -/
theorem textsOk_init {loc : ℕ → Option Place}
    (hloc : ∀ h, loc h = none ∨ loc h = some .free) : TextsOk cfg ((init cfg).texts cfg loc) := by
  have hout : ((init cfg).texts cfg loc).out cfg = [] := by
    apply filterMap_eq_nil_iff.mpr
    intro h _
    show (init cfg).seg cfg loc h = none
    unfold seg
    rcases hloc h with hl | hl <;> rw [hl]
  obtain ⟨hsize, hrep⟩ := Os.represents_mapinit cfg.map_ge cfg.map_lt
  -- the map after `mfree(msgmap, msginfo.msgseg, 1)`
  have hmap : ∀ r, Os.mfree (Os.mapinit cfg.msgmap) cfg.msgseg 1 = some r →
      ((init cfg).texts cfg loc).map = r.1 := by
    intro r hr
    simp only [texts, init, hr]
  unfold TextsOk
  rw [hout]
  rcases Nat.eq_zero_or_pos cfg.msgseg with h0 | hpos
  · have hr : Os.mfree (Os.mapinit cfg.msgmap) cfg.msgseg 1 = some (Os.mapinit cfg.msgmap,
        .freed false) := by rw [Os.mfree, if_pos h0]
    refine ⟨[], ⟨[], by rw [hmap _ hr]; exact hrep, ?_⟩, fun _ => ⟨rfl, rfl⟩⟩
    refine ⟨fun u => ?_, by simp, by simp, by simp⟩
    constructor
    · rintro ⟨h1, h2⟩
      have h3 : 1 ≤ u := h1
      have h4 : u < 1 + cfg.msgseg := h2
      omega
    · rintro (h | h) <;> exact absurd h (covers_nil u)
  · rcases Os.mfree_refines (x := cfg.pool) hrep hpos Nat.one_pos pool_stop (by simp) with
      ⟨m, hr, hrep', -⟩ | ⟨hr, hfull, -⟩
    · refine ⟨[], ⟨release cfg.pool [], by rw [hmap _ hr]; exact hrep', ?_⟩, fun _ => ⟨rfl, rfl⟩⟩
      exact ⟨by simp [release], by simp, by simp, by simp⟩
    · refine ⟨[cfg.pool], ⟨[], by rw [hmap _ hr]; exact hrep, ?_⟩, fun hc => by omega⟩
      exact ⟨by simp, by simp, by simp, by simpa [MsgInfo.pool] using hpos⟩

/-- The segments of a header lie in the pool. -/
theorem seg_within (hT : TextsOk cfg (s.texts cfg loc)) (hh : h < cfg.msgtql)
    (he : s.seg cfg loc h = some e) : 1 ≤ e.base ∧ e.stop ≤ 1 + cfg.msgseg ∧ 0 < e.len := by
  obtain ⟨gone, ⟨l, -, hdiv⟩, -⟩ := hT
  have hmem : e ∈ (s.texts cfg loc).out cfg ++ gone :=
    mem_append_left _ (mem_filterMap.mpr ⟨h, mem_range.mpr hh, he⟩)
  have hpos := hdiv.outPos e hmem
  have hin : ∀ u, e.Has u → cfg.pool.Has u := fun u hu => (hdiv.split u).mpr (.inr ⟨e, hmem, hu⟩)
  have hfirst := hin e.base (Extent.has_base hpos)
  have hlast := hin (e.stop - 1) ⟨by unfold Extent.stop; omega, by unfold Extent.stop; omega⟩
  have h1 : 1 ≤ e.base := hfirst.1
  have h2 : e.stop - 1 < 1 + cfg.msgseg := hlast.2
  exact ⟨h1, by omega, hpos⟩

section

variable (hI : MsgInv cfg s fl ql loc)

include hI

theorem spots_of (hT : TextsOk cfg (s.texts cfg loc)) : Spots s := by
  intro p a qp type mp spot hproc h0
  have hhdr : (s.proc p).header = some mp := by rw [hproc]; rfl
  have hloc := (hI.core.placed.sending mp p).mp hhdr
  have hseg : s.seg cfg loc mp = some ⟨spot, cfg.btoq a.msgsz.toNat⟩ := by
    unfold seg
    rw [hloc]
    show (s.proc p).text cfg = _
    rw [hproc]
    exact if_neg h0
  obtain ⟨h1, h2, h3⟩ := seg_within hT ((hI.core.placed.all mp).mp (by simp [hloc])) hseg
  have := cfg.seg_lt
  have h4 : spot + cfg.btoq a.msgsz.toNat ≤ 1 + cfg.msgseg := h2
  have h5 : 0 < cfg.btoq a.msgsz.toNat := h3
  exact ⟨h1, by omega⟩

omit hI in
/-- **Headers and segments in every state reached.** -/
theorem exists_textsOk {es : List MsgEvent} (h : exec (step cfg) (init cfg) es = some s) :
    ∃ fl ql loc, MsgInv cfg s fl ql loc ∧ TextsOk cfg (s.texts cfg loc) := by
  refine exec_invariant'
    (P := fun s => ∃ fl ql loc, MsgInv cfg s fl ql loc ∧ TextsOk cfg (s.texts cfg loc)) ?_
    ⟨_, _, _, MsgInv.init, textsOk_init fun h => ?_⟩ h
  · rintro s e t ⟨fl, ql, loc, hI, hT⟩ ht
    obtain ⟨o, hr⟩ := step_run ht
    obtain ⟨fl', ql', loc', hI', -, hc⟩ := hI.run hr
    exact ⟨fl', ql', loc', hI', hT.change (hc (spots_of hI hT))⟩
  · by_cases hh : h < cfg.msgtql
    · exact .inr (if_pos hh)
    · exact .inl (if_neg hh)

/-! ## The law of the headers and the segments -/

/-- The free list, from `msgfp` on. -/
def MsgState.freeList (cfg : MsgInfo) (s : MsgState) : List ℕ := walk s.msgNext cfg.msgtql s.msgfp

/-- Header `h` is on the free list, on a queue, or with a process that sends it. -/
def MsgState.At (cfg : MsgInfo) (s : MsgState) (h : ℕ) : Place → Prop
  | .free => h ∈ s.freeList cfg
  | .queue qp => h ∈ s.queue cfg qp
  | .sending p => (s.proc p).header = some h

/-- Header `h`, on a queue or with a process, has the segments `e`. -/
def MsgState.Text (cfg : MsgInfo) (s : MsgState) (h : ℕ) (e : Extent) : Prop :=
  (∃ qp, h ∈ s.queue cfg qp ∧ cfg.seg (s.msgTs h) (s.msgSpot h + 1) = some e) ∨
    ∃ p, (s.proc p).header = some h ∧ (s.proc p).text cfg = some e

/-- What holds of the headers, the queues and the segments. -/
structure MsgLaw (cfg : MsgInfo) (s : MsgState) : Prop where
  /-- The free list and the queues end. -/
  lists : Linked s.msgNext s.msgfp (s.freeList cfg) ∧
    ∀ qp, Linked s.msgNext (s.msgFirst qp) (s.queue cfg qp)
  /-- No list has a header twice. -/
  nodup : (s.freeList cfg).Nodup ∧ ∀ qp, (s.queue cfg qp).Nodup
  /-- Every header is at exactly one place, and nothing else is at one. -/
  place : ∀ h, (h < cfg.msgtql → ∃! pl, s.At cfg h pl) ∧ (∀ pl, s.At cfg h pl → h < cfg.msgtql)
  qnum : ∀ qp, s.msgQnum qp = (s.queue cfg qp).length
  cbytes : ∀ qp, (s.msgCbytes qp : ℤ) = ((s.queue cfg qp).map s.msgTs).sum
  last : ∀ qp, s.msgLast qp = (s.queue cfg qp).getLast?
  /-- The segments of two headers are disjoint. -/
  apart : ∀ h h' e e', h ≠ h' → s.Text cfg h e → s.Text cfg h' e' → e.Apart e'
  /-- The pool consists of the free segments and of those of the headers. -/
  pool : ∀ u, (1 ≤ u ∧ u < 1 + cfg.msgseg) ↔ Covers s.msgmap.free u ∨ ∃ h e, s.Text cfg h e ∧ e.Has u
  free : ∀ h e u, s.Text cfg h e → e.Has u → ¬ Covers s.msgmap.free u
  /-- The warning "mfree map overflow" was never given. -/
  lost : s.lost = 0

theorem at_iff {pl : Place} : s.At cfg h pl ↔ loc h = some pl := by
  have hP := hI.core.placed
  have hfree : s.freeList cfg = fl := hI.core.free.walk_eq hP.length_free
  cases pl with
  | free =>
    show h ∈ s.freeList cfg ↔ _
    rw [hfree]
    exact hP.free h
  | queue qp =>
    show h ∈ s.queue cfg qp ↔ _
    rw [queue_eq hI.core]
    exact hP.queue h qp
  | sending p => exact hP.sending h p

theorem text_iff : s.Text cfg h e ↔ s.seg cfg loc h = some e := by
  have hP := hI.core.placed
  unfold Text seg
  rw [queue_eq hI.core]
  constructor
  · rintro (⟨qp, hq, he⟩ | ⟨p, hp, he⟩)
    · rw [(hP.queue h qp).mp hq]
      exact he
    · rw [(hP.sending h p).mp hp]
      exact he
  · intro he
    cases hloc : loc h with
    | none => rw [hloc] at he; cases he
    | some pl =>
      rw [hloc] at he
      cases pl with
      | free => cases he
      | queue qp => exact .inl ⟨qp, (hP.queue h qp).mpr hloc, he⟩
      | sending p => exact .inr ⟨p, (hP.sending h p).mpr hloc, he⟩

theorem lt_of_seg (he : s.seg cfg loc h = some e) :
    h < cfg.msgtql := by
  apply (hI.core.placed.all h).mp
  intro hn
  unfold seg at he
  rw [hn] at he
  cases he

theorem MsgInv.msgLaw (hT : TextsOk cfg (s.texts cfg loc))
    (hmap : cfg.msgtql + 3 ≤ cfg.msgmap) : MsgLaw cfg s := by
  have hP := hI.core.placed
  have hfree : s.freeList cfg = fl := hI.core.free.walk_eq hP.length_free
  have hqueue : s.queue cfg = ql := queue_eq hI.core
  obtain ⟨gone, ⟨l, hrep, hdiv⟩, hgone⟩ := hT
  obtain ⟨rfl, hlost⟩ := hgone hmap
  rw [append_nil] at hdiv
  have hl : s.msgmap.free = l := hrep.free_eq
  have hout : ∀ e, e ∈ (s.texts cfg loc).out cfg ↔ ∃ h, s.seg cfg loc h = some e := by
    intro e
    refine mem_filterMap.trans ⟨fun ⟨h, _, he⟩ => ⟨h, he⟩, fun ⟨h, he⟩ => ⟨h, ?_, he⟩⟩
    exact mem_range.mpr (lt_of_seg hI he)
  constructor
  case lists => rw [hfree, hqueue]; exact ⟨hI.core.free, hI.core.queue⟩
  case nodup => rw [hfree, hqueue]; exact ⟨hP.nodupFree, hP.nodupQueue⟩
  case place =>
    intro h
    constructor
    · intro hh
      obtain ⟨pl, hpl⟩ := Option.ne_none_iff_exists'.mp ((hP.all h).mpr hh)
      refine ⟨pl, (at_iff hI).mpr hpl, fun pl' hpl' => ?_⟩
      have h2 := (at_iff hI).mp hpl'
      rw [hpl] at h2
      exact (Option.some.inj h2).symm
    · intro pl hpl
      apply (hP.all h).mp
      rw [(at_iff hI).mp hpl]
      exact some_ne_none pl
  case qnum => rw [hqueue]; exact hI.core.qnum
  case cbytes => rw [hqueue]; exact hI.bytes
  case last => rw [hqueue]; exact hI.core.last
  case apart =>
    intro h h' e e' hne he he'
    have he := (text_iff hI).mp he
    have he' := (text_iff hI).mp he'
    have hpair := pairwise_filterMap.mp hdiv.outApart
    have : Std.Symm fun a a' => ∀ b, (s.texts cfg loc).seg a = some b →
        ∀ b', (s.texts cfg loc).seg a' = some b' → b.Apart b' :=
      ⟨fun a b hab x hx y hy => (hab y hy x hx).symm⟩
    exact hpair.forall (mem_range.mpr (lt_of_seg hI he))
      (mem_range.mpr (lt_of_seg hI he')) hne e he e' he'
  case pool =>
    intro u
    rw [hl]
    refine (hdiv.split u).trans (or_congr Iff.rfl ⟨?_, ?_⟩)
    · rintro ⟨e, he, hu⟩
      obtain ⟨h, hs⟩ := (hout e).mp he
      exact ⟨h, e, (text_iff hI).mpr hs, hu⟩
    · rintro ⟨h, e, he, hu⟩
      exact ⟨e, (hout e).mpr ⟨h, (text_iff hI).mp he⟩, hu⟩
  case free =>
    intro h e u he hu hc
    rw [hl] at hc
    exact hdiv.apart u ⟨hc, e, (hout e).mpr ⟨h, (text_iff hI).mp he⟩, hu⟩
  case lost => exact hlost

end

/-- **Message queue accounting.**  After any events, with a map of `msgtql + 3` entries. -/
theorem msg_accounting (hmap : cfg.msgtql + 3 ≤ cfg.msgmap) {es : List MsgEvent}
    (h : exec (step cfg) (init cfg) es = some s) : MsgLaw cfg s := by
  obtain ⟨fl, ql, loc, hI, hT⟩ := exists_textsOk h
  exact hI.msgLaw hT hmap

/-- A process sends ten bytes, and a second one is in the middle of sending as many. -/
theorem msg_accounting_send : ∃ s, exec (step .config) (init .config)
    [.msgget 0, .call 7 (.msgsnd ⟨0, 10, true⟩), .go 7 .plain, .go 7 .plain, .go 7 .plain,
      .go 7 .plain, .call 8 (.msgsnd ⟨0, 10, true⟩), .go 8 .plain, .go 8 .plain, .go 8 .plain] =
        some s ∧ MsgLaw .config s :=
  have h : (exec (step .config) (init .config)
    [.msgget 0, .call 7 (.msgsnd ⟨0, 10, true⟩), .go 7 .plain, .go 7 .plain, .go 7 .plain,
      .go 7 .plain, .call 8 (.msgsnd ⟨0, 10, true⟩), .go 8 .plain, .go 8 .plain,
      .go 8 .plain]).isSome = true := by decide
  ⟨_, (some_get h).symm, msg_accounting (by decide) (some_get h).symm⟩

/-! ## No panic and no endless loop -/

theorem mfree_isSome (hT : TextsOk cfg (s.texts cfg loc)) (hh : h < cfg.msgtql)
    (he : s.seg cfg loc h = some e) : ∃ r, Os.mfree s.msgmap e.len e.base = some r := by
  obtain ⟨gone, ⟨l, hrep, hdiv⟩, -⟩ := hT
  have hmem : e ∈ (s.texts cfg loc).out cfg ++ gone :=
    mem_append_left _ (mem_filterMap.mpr ⟨h, mem_range.mpr hh, he⟩)
  obtain ⟨hpos, hbase, hstop, hout⟩ := hdiv.outstanding Nat.one_pos pool_stop hmem
  rcases Os.mfree_refines hrep hpos hbase hstop hout with ⟨m, heq, -⟩ | ⟨heq, -⟩
  · exact ⟨_, heq⟩
  · exact ⟨_, heq⟩

theorem malloc_isSome {size : ℕ} (hT : TextsOk cfg (s.texts cfg loc)) :
    ∃ r, Os.malloc s.msgmap size = some r := by
  obtain ⟨gone, ⟨l, hrep, -⟩, -⟩ := hT
  rcases Nat.eq_zero_or_pos size with rfl | hsize
  · exact ⟨_, if_pos rfl⟩
  · rcases Os.malloc_refines hrep hsize with ⟨-, heq⟩ | ⟨a, l', m, -, heq, -⟩
    · exact ⟨_, heq⟩
    · exact ⟨_, heq⟩

variable {hdr : ℕ → Option ℕ} {qp mp : ℕ} {l l₁ l₂ : List ℕ} {env : MsgEnv}

/-- A message of a queue can be freed. -/
theorem msgfree_isSome (hC : Core cfg s fl ql loc hdr) (hT : TextsOk cfg (s.texts cfg loc))
    (hq : ql qp = l₁ ++ mp :: l₂) : ∃ t, s.msgfree cfg qp l₁.getLast? mp = some t := by
  have hlink := hC.queue qp
  rw [hq] at hlink
  have hfreed : ∀ u : MsgState, u.msgTs = s.msgTs → u.msgSpot = s.msgSpot → u.msgmap = s.msgmap →
      ∃ t, (if u.msgTs mp ≠ 0 then u.mfree (cfg.btoq (u.msgTs mp).toNat) (u.msgSpot mp + 1).toNat
        else some u).map (fun s => s.freeHeader mp) = some t := by
    intro u hts hspot hm
    rw [hts, hspot]
    by_cases h0 : s.msgTs mp ≠ 0
    · have hloc : loc mp = some (.queue qp) := (hC.placed.queue mp qp).mp (by simp [hq])
      have hseg : s.seg cfg loc mp =
          some ⟨(s.msgSpot mp + 1).toNat, cfg.btoq (s.msgTs mp).toNat⟩ := by
        unfold seg
        rw [hloc]
        exact if_neg h0
      obtain ⟨r, hr⟩ := mfree_isSome hT ((hC.placed.all mp).mp (by simp [hloc])) hseg
      rw [if_pos h0, mfree, hm, hr]
      exact ⟨_, rfl⟩
    · rw [if_neg h0]
      exact ⟨_, rfl⟩
  unfold msgfree
  rw [fixPrev_eq hlink, bind_some]
  exact hfreed _ rfl rfl rfl

theorem freeAll_isSome {n : ℕ} (hC : Core cfg s fl ql loc hdr) (hp : hdr p = none)
    (hT : TextsOk cfg (s.texts cfg loc)) (hq : ql qp = l) (hn : l.length ≤ n) :
    ∃ t, freeAll cfg qp n s = some t := by
  induction l generalizing n s fl ql loc with
  | nil =>
    have hfirst : s.msgFirst qp = none := by
      have := hC.queue qp
      rwa [hq] at this
    cases n with
    | zero => exact ⟨s, by rw [freeAll, if_pos hfirst]⟩
    | succ n => exact ⟨s, by rw [freeAll, hfirst]⟩
  | cons m l ih =>
    have hfirst : s.msgFirst qp = some m := by
      have := hC.queue qp
      rw [hq] at this
      exact this.1
    cases n with
    | zero => simp at hn
    | succ n =>
      obtain ⟨u, hu⟩ := @msgfree_isSome cfg s fl ql loc hdr qp m [] l hC hT hq
      obtain ⟨hC', -, -⟩ := @msgfree_spec [] l m cfg s u fl ql loc hdr p qp hC hp hq hu
      have hT' := hT.change (@msgfree_texts [] l m cfg s u fl ql loc hdr p qp hC hp hq hu)
      obtain ⟨t, ht⟩ := ih hC' hT' (update_self _ _ _) (by simpa using hn)
      refine ⟨t, ?_⟩
      rw [freeAll, hfirst]
      show (s.msgfree cfg qp none m).bind _ = _
      rw [show s.msgfree cfg qp none m = some u from hu]
      exact ht

/-- **A process gets on** unless it sleeps or finds its queue locked: no search runs on for
ever, and no routine panics. -/
theorem go_isSome (hI : MsgInv cfg s fl ql loc) (hT : TextsOk cfg (s.texts cfg loc))
    (hidle : s.proc p ≠ .idle)
    (hfree : ∀ id, (s.proc p).conv = some id → s.msgconv cfg id ≠ .busy) :
    ∃ o t, s.go cfg p env = some (o, t) := by
  unfold go
  have hok := hI.procs p
  cases hproc : s.proc p with
  | idle => exact absurd hproc hidle
  | sndStart a =>
    rw [hproc] at hfree
    show ∃ o t, s.msgsndStart cfg p env a = some (o, t)
    unfold msgsndStart
    cases hc : s.msgconv cfg a.msqid with
    | busy => exact absurd hc (hfree _ rfl)
    | einval => exact ⟨_, _, rfl⟩
    | qp qp => dsimp only; split_ifs <;> exact ⟨_, _, rfl⟩
  | sndType a qp =>
    show ∃ o t, s.msgsndType p env a qp = some (o, t)
    unfold msgsndType
    split_ifs <;> exact ⟨_, _, rfl⟩
  | getres a qp type slept =>
    rw [hproc] at hfree
    show ∃ o t, s.msgsndGetres cfg p a qp type = some (o, t)
    unfold msgsndGetres
    cases hc : s.msgconv cfg a.msqid with
    | busy => exact absurd hc (hfree _ rfl)
    | einval => exact ⟨_, _, rfl⟩
    | qp qp1 =>
      obtain ⟨⟨spot, map⟩, hm⟩ := @malloc_isSome cfg s loc (cfg.btoq a.msgsz.toNat) hT
      cases hfp : s.msgfp with
      | none => dsimp only; split_ifs <;> exact ⟨_, _, rfl⟩
      | some mp => dsimp only; rw [hm]; dsimp only; split_ifs <;> exact ⟨_, _, rfl⟩
  | sndIntr a qp room =>
    rw [hproc] at hfree
    show ∃ o t, s.msgsndIntr cfg p a qp room = some (o, t)
    unfold msgsndIntr
    cases hc : s.msgconv cfg a.msqid with
    | busy => exact absurd hc (hfree _ rfl)
    | einval => exact ⟨_, _, rfl⟩
    | qp qp => dsimp only; split_ifs <;> exact ⟨_, _, rfl⟩
  | sndMove a qp type mp spot =>
    show ∃ o t, s.msgsndMove cfg p env a qp type mp spot = some (o, t)
    unfold msgsndMove
    by_cases hfault : a.msgsz ≠ 0 ∧ env.fault
    · have hloc : loc mp = some (.sending p) :=
        (hI.core.placed.sending mp p).mp (by rw [hproc]; rfl)
      have hseg : s.seg cfg loc mp = some ⟨spot, cfg.btoq a.msgsz.toNat⟩ := by
        unfold seg
        rw [hloc]
        show (s.proc p).text cfg = _
        rw [hproc]
        exact if_neg hfault.1
      obtain ⟨r, hr⟩ := mfree_isSome hT ((hI.core.placed.all mp).mp (by simp [hloc])) hseg
      rw [if_pos hfault, mfree, hr]
      exact ⟨_, _, rfl⟩
    · rw [if_neg hfault]
      exact ⟨_, _, rfl⟩
  | rcvStart a =>
    rw [hproc] at hfree
    show ∃ o t, s.msgrcvStart cfg p env a = some (o, t)
    unfold msgrcvStart
    cases hc : s.msgconv cfg a.msqid with
    | busy => exact absurd hc (hfree _ rfl)
    | einval => exact ⟨_, _, rfl⟩
    | qp qp => dsimp only; split_ifs <;> exact ⟨_, _, rfl⟩
  | findmsg a qp slept =>
    rw [hproc] at hfree
    show ∃ o t, s.msgrcvFind cfg p a qp = some (o, t)
    unfold msgrcvFind
    cases hc : s.msgconv cfg a.msqid with
    | busy => exact absurd hc (hfree _ rfl)
    | einval => exact ⟨_, _, rfl⟩
    | qp qp1 =>
      obtain ⟨smp, spmp, hsel, -⟩ := hI.select a.msgtyp qp
      dsimp only
      rw [hsel]
      cases smp <;> dsimp only <;> split_ifs <;> exact ⟨_, _, rfl⟩
  | rcvMove a qp smp spmp =>
    show ∃ o t, s.msgrcvMove cfg p env a qp smp spmp = some (o, t)
    rw [hproc] at hok
    unfold msgrcvMove
    by_cases hfault : env.fault = true
    · rw [if_pos hfault]
      exact ⟨_, _, rfl⟩
    · rcases hok.2 with ⟨h, -⟩ | ⟨l₁, m, l₂, hq, hm, hlast, -⟩
      · cases h
      · cases hm
        obtain ⟨t, ht⟩ := @msgfree_isSome cfg (s.setCbytes qp (s.msgCbytes qp - s.msgTs smp)) fl ql
          loc _ qp smp l₁ l₂ ⟨hI.core.1, hI.core.2, hI.core.3, hI.core.4, hI.core.5, hI.core.6,
            hI.core.7⟩ hT hq
        rw [if_neg hfault, hlast]
        dsimp only
        rw [ht]
        exact ⟨_, _, rfl⟩
  | ctlStart msqid cmd =>
    rw [hproc] at hfree
    show ∃ o t, s.msgctlStart cfg p env msqid cmd = some (o, t)
    unfold msgctlStart
    cases hc : s.msgconv cfg msqid with
    | busy => exact absurd hc (hfree _ rfl)
    | einval => exact ⟨_, _, rfl⟩
    | qp qp =>
      have hhdr : (s.proc p).header = none := by rw [hproc]; rfl
      have hfree : ∃ t, freeAll cfg qp cfg.msgtql s = some t :=
        freeAll_isSome (p := p) hI.core hhdr hT rfl hI.core.placed.length_queue
      obtain ⟨t, ht⟩ := hfree
      cases cmd with
      | rmid => dsimp only; rw [rmid, ht]; split_ifs <;> exact ⟨_, _, rfl⟩
      | set => dsimp only; split_ifs <;> exact ⟨_, _, rfl⟩
      | stat => dsimp only; split_ifs <;> exact ⟨_, _, rfl⟩
      | other => exact ⟨_, _, rfl⟩
  | ctlCopy qp set =>
    show ∃ o t, s.msgctlCopy p env qp set = some (o, t)
    unfold msgctlCopy
    split_ifs <;> exact ⟨_, _, rfl⟩

end runs

end Io
