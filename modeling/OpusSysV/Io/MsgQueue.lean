import OpusSysV.Io.Msg
import OpusSysV.Lib.Linked

/-!
# The queues of `msg.c`

* `Core` — the headers: the free list and the queues are linked lists, and every header
  has one place, on the free list, on a queue or with the process that sends it.
* `Core.pop`, `Core.freeHeader`, `Core.enqueue`, `Core.unlink` — what the calls do to it;
  `msgfree_spec` and `freeAll_spec` for the routines.
* `Texts.Change` — what the calls do with the segments.
* `select_spec` — the search of `msgrcv`.
-/

namespace Io

open Lib Function List Option

/-! ## What `msgrcv` looks for -/

/-- A message of type `t` may be returned: any, those of one type, or those of a type up
to a bound. -/
def Admits (typ bound t : ℤ) : Prop := typ = 0 ∨ (0 < typ ∧ t = typ) ∨ (typ < 0 ∧ t ≤ bound)

/-- Of the messages `a`, `m` and `c` of a queue, `m` is returned: the oldest that may be, or
the oldest of the lowest type. -/
structure Picks (typ bound : ℤ) (type : ℕ → ℤ) (a : List ℕ) (m : ℕ) (c : List ℕ) : Prop where
  admits : Admits typ bound (type m)
  before : ∀ x ∈ a, Admits typ bound (type x) → typ < 0 ∧ type m < type x
  after : ∀ x ∈ c, Admits typ bound (type x) → typ < 0 → type m ≤ type x

/-- The outcome of a search in the queue `l`: `smp` and the message before it. -/
def Chosen (typ bound : ℤ) (type : ℕ → ℤ) (l : List ℕ) (smp spmp : Option ℕ) : Prop :=
  (smp = none ∧ ∀ x ∈ l, ¬ Admits typ bound (type x)) ∨
    ∃ a m c, l = a ++ m :: c ∧ smp = some m ∧ spmp = a.getLast? ∧ Picks typ bound type a m c

variable {typ bound : ℤ} {type : ℕ → ℤ} {l l₁ l₂ a c : List ℕ} {smp spmp pmp : Option ℕ} {m mp : ℕ}

theorem Chosen.congr {type' : ℕ → ℤ} (h : Chosen typ bound type l smp spmp)
    (ht : ∀ x ∈ l, type' x = type x) : Chosen typ bound type' l smp spmp := by
  rcases h with ⟨h1, h2⟩ | ⟨a, m, c, rfl, h1, h2, h3⟩
  · exact .inl ⟨h1, fun x hx => by rw [ht x hx]; exact h2 x hx⟩
  · have ha : ∀ x ∈ a, type' x = type x := fun x hx => ht x (by simp [hx])
    have hc : ∀ x ∈ c, type' x = type x := fun x hx => ht x (by simp [hx])
    have hm : type' m = type m := ht m (by simp)
    refine .inr ⟨a, m, c, rfl, h1, h2, ?_, fun x hx => ?_, fun x hx => ?_⟩
    · rw [hm]; exact h3.admits
    · rw [hm, ha x hx]; exact h3.before x hx
    · rw [hm, hc x hx]; exact h3.after x hx

/-- A message that may not be returned, or not before the best so far, is passed. -/
theorem Chosen.pass (h : Chosen typ bound type l smp spmp)
    (hm : Admits typ bound (type m) → typ < 0 ∧ ∃ best, smp = some best ∧ type best ≤ type m) :
    Chosen typ bound type (l ++ [m]) smp spmp := by
  rcases h with ⟨h1, h2⟩ | ⟨a, b, c, rfl, h1, h2, h3⟩
  · refine .inl ⟨h1, fun x hx => ?_⟩
    rcases mem_append.mp hx with hx | hx
    · exact h2 x hx
    · obtain rfl := mem_singleton.mp hx
      intro ha
      obtain ⟨-, best, hb, -⟩ := hm ha
      rw [h1] at hb
      cases hb
  · refine .inr ⟨a, b, c ++ [m], by simp, h1, h2, h3.admits, h3.before, fun x hx ha hneg => ?_⟩
    rcases mem_append.mp hx with hx | hx
    · exact h3.after x hx ha hneg
    · obtain rfl := mem_singleton.mp hx
      obtain ⟨-, best, hb, hle⟩ := hm ha
      rw [h1] at hb
      cases hb
      exact hle

/-- A message of a lower type than the best so far takes its place. -/
theorem Chosen.take (h : Chosen typ bound type l smp spmp) (hm : Admits typ bound (type m))
    (hneg : typ < 0) (hbest : ∀ best, smp = some best → type m < type best) :
    Chosen typ bound type (l ++ [m]) (some m) l.getLast? := by
  refine .inr ⟨l, m, [], rfl, rfl, rfl, hm, fun x hx ha => ⟨hneg, ?_⟩, by simp⟩
  rcases h with ⟨-, h2⟩ | ⟨a, b, c, rfl, h1, -, h3⟩
  · exact absurd ha (h2 x hx)
  · have hb := hbest b h1
    rcases mem_append.mp hx with hx | hx
    · exact lt_trans hb (h3.before x hx ha).2
    · rcases mem_cons.mp hx with rfl | hx
      · exact hb
      · exact lt_of_lt_of_le hb (h3.after x hx ha hneg)

namespace MsgState

variable {cfg : MsgInfo} {s t : MsgState}

/-- The loop of `msgrcv`, which has passed `l₁`. -/
theorem search_spec {n : ℕ} {mp : Option ℕ} (hlink : Linked s.msgNext mp l) (hn : l.length ≤ n)
    (htyp : typ ≠ 0) (hpmp : pmp = l₁.getLast?)
    (hpos : 0 < typ → ∀ x ∈ l₁, s.msgType x ≠ typ)
    (hc : Chosen typ (long (-typ)) s.msgType l₁ smp spmp) :
    ∃ smp' spmp', s.search typ n pmp mp smp spmp = some (smp', spmp') ∧
      Chosen typ (long (-typ)) s.msgType (l₁ ++ l) smp' spmp' := by
  induction l generalizing l₁ n mp pmp smp spmp with
  | nil =>
    obtain rfl : mp = none := hlink
    refine ⟨smp, spmp, ?_, by simpa using hc⟩
    cases n <;> rfl
  | cons m l ih =>
    obtain ⟨rfl, hlink⟩ := hlink
    cases n with
    | zero => simp at hn
    | succ n =>
      have hn' : l.length ≤ n := by simpa using hn
      have hlast : some m = (l₁ ++ [m]).getLast? := by simp
      have happ : l₁ ++ m :: l = (l₁ ++ [m]) ++ l := by simp
      -- the loop goes on with `smp'` and `spmp'`
      have hgo : ∀ smp' spmp', (0 < typ → s.msgType m ≠ typ) →
          Chosen typ (long (-typ)) s.msgType (l₁ ++ [m]) smp' spmp' →
          ∃ r r', s.search typ n (some m) (s.msgNext m) smp' spmp' = some (r, r') ∧
            Chosen typ (long (-typ)) s.msgType (l₁ ++ m :: l) r r' := by
        intro smp' spmp' hne hc'
        rw [happ]
        refine ih hlink hn' hlast (fun h0 x hx => ?_) hc'
        rcases mem_append.mp hx with hx | hx
        · exact hpos h0 x hx
        · rw [mem_singleton.mp hx]
          exact hne h0
      unfold search
      by_cases h0 : typ > 0
      · rw [if_pos h0]
        by_cases hne : typ ≠ s.msgType m
        · rw [if_pos hne]
          refine hgo _ _ (fun _ => hne.symm) (hc.pass fun ha => ?_)
          rcases ha with h | h | h
          · exact absurd h htyp
          · exact absurd h.2.symm hne
          · omega
        · rw [if_neg hne]
          have heq : typ = s.msgType m := not_not.mp hne
          refine ⟨some m, pmp, rfl, .inr ⟨l₁, m, l, rfl, rfl, hpmp, .inr (.inl ⟨h0, heq.symm⟩),
            fun x hx ha => ?_, fun x hx ha hneg => by omega⟩⟩
          rcases ha with h | h | h
          · exact absurd h htyp
          · exact absurd h.2 (hpos h0 x hx)
          · omega
      · rw [if_neg h0]
        have hneg : typ < 0 := by omega
        by_cases hle : s.msgType m ≤ long (-typ)
        · rw [if_pos hle]
          by_cases hbest : ∃ best, smp = some best ∧ s.msgType best ≤ s.msgType m
          · rw [if_pos hbest]
            exact hgo _ _ (fun h => absurd h h0) (hc.pass fun _ => ⟨hneg, hbest⟩)
          · rw [if_neg hbest]
            refine hgo _ _ (fun h => absurd h h0) ?_
            rw [hpmp]
            refine hc.take (.inr (.inr ⟨hneg, hle⟩)) hneg fun best hb => ?_
            by_contra hlt
            exact hbest ⟨best, hb, not_lt.mp hlt⟩
        · rw [if_neg hle]
          refine hgo _ _ (fun h => absurd h h0) (hc.pass fun ha => ?_)
          rcases ha with h | h | h
          · exact absurd h htyp
          · omega
          · exact absurd h.2 hle

/-- **What `msgrcv` finds in a queue.** -/
theorem select_spec {qp : ℕ} (hlink : Linked s.msgNext (s.msgFirst qp) l)
    (hn : l.length ≤ cfg.msgtql) : ∃ smp spmp, s.select cfg typ qp = some (smp, spmp) ∧
      Chosen typ (long (-typ)) s.msgType l smp spmp := by
  unfold select
  split_ifs with h0
  · refine ⟨_, _, rfl, ?_⟩
    cases l with
    | nil => exact .inl ⟨hlink, by simp⟩
    | cons m l => exact .inr ⟨[], m, l, rfl, hlink.1, rfl, .inl h0, by simp, fun x _ _ h => by omega⟩
  · have h : ∃ smp spmp, s.search typ cfg.msgtql none (s.msgFirst qp) none none = some (smp, spmp) ∧
        Chosen typ (long (-typ)) s.msgType ([] ++ l) smp spmp :=
      search_spec hlink hn h0 rfl (fun _ x hx => absurd hx not_mem_nil)
        (.inl ⟨rfl, fun x hx => absurd hx not_mem_nil⟩)
    exact h

end MsgState

/-! ## The headers -/

/-- Where a header is: on the free list, on a queue, or with a process that sends it. -/
inductive Place
  | free
  | queue (qp : ℕ)
  | sending (p : ℕ)
  deriving DecidableEq, Repr

/-- The headers on the free list `fl`, on the queues `ql` and with the processes (`hdr`)
are those that `loc` puts there, each once. -/
structure Placed (cfg : MsgInfo) (fl : List ℕ) (ql : ℕ → List ℕ) (loc : ℕ → Option Place)
    (hdr : ℕ → Option ℕ) : Prop where
  free : ∀ h, h ∈ fl ↔ loc h = some .free
  queue : ∀ h qp, h ∈ ql qp ↔ loc h = some (.queue qp)
  sending : ∀ h p, hdr p = some h ↔ loc h = some (.sending p)
  all : ∀ h, loc h ≠ none ↔ h < cfg.msgtql
  nodupFree : fl.Nodup
  nodupQueue : ∀ qp, (ql qp).Nodup

section placed

variable {cfg : MsgInfo} {fl fl' : List ℕ} {ql : ℕ → List ℕ} {loc : ℕ → Option Place}
  {hdr : ℕ → Option ℕ} {p qp h : ℕ}

section

variable (hP : Placed cfg fl ql loc hdr)

include hP

/-- No list is longer than there are headers. -/
theorem Placed.length_le {l : List ℕ} (hl : l.Nodup)
    (hloc : ∀ h ∈ l, loc h ≠ none) : l.length ≤ cfg.msgtql := by
  have hsub : l ⊆ List.range cfg.msgtql :=
    fun h hh => mem_range.mpr ((hP.all h).mp (hloc h hh))
  have := (hl.subperm hsub).length_le
  rwa [length_range] at this

theorem Placed.length_queue : (ql qp).length ≤ cfg.msgtql :=
  hP.length_le (hP.nodupQueue qp) fun h hh => by simp [(hP.queue h qp).mp hh]

theorem Placed.length_free : fl.length ≤ cfg.msgtql :=
  hP.length_le hP.nodupFree fun h hh => by simp [(hP.free h).mp hh]

/-- A header moves to another place. -/
theorem Placed.move {ql' : ℕ → List ℕ} {hdr' : ℕ → Option ℕ}
    (place : Place) (hmp : loc mp ≠ none)
    (hfree : ∀ h, h ∈ fl' ↔ (h = mp ∧ place = .free) ∨ (h ≠ mp ∧ h ∈ fl))
    (hqueue : ∀ h qp, h ∈ ql' qp ↔ (h = mp ∧ place = .queue qp) ∨ (h ≠ mp ∧ h ∈ ql qp))
    (hhdr : ∀ h p, hdr' p = some h ↔ (h = mp ∧ place = .sending p) ∨ (h ≠ mp ∧ hdr p = some h))
    (hnd : fl'.Nodup) (hndq : ∀ qp, (ql' qp).Nodup) :
    Placed cfg fl' ql' (update loc mp (some place)) hdr' := by
  have hsame : ∀ x, x ≠ mp → update loc mp (some place) x = loc x :=
    fun x hx => update_of_ne hx _ _
  have hself : update loc mp (some place) mp = some place := update_self _ _ _
  refine ⟨fun h => ?_, fun h qp => ?_, fun h p => ?_, fun h => ?_, hnd, hndq⟩
  · rw [hfree h]
    by_cases hh : h = mp
    · simp [hh]
    · simp [hh, hP.free h]
  · rw [hqueue h qp]
    by_cases hh : h = mp
    · simp [hh]
    · simp [hh, hP.queue h qp]
  · rw [hhdr h p]
    by_cases hh : h = mp
    · simp [hh]
    · simp [hh, hP.sending h p]
  · by_cases hh : h = mp
    · rw [hh, hself]
      exact iff_of_true (by simp) ((hP.all mp).mp hmp)
    · rw [hsame h hh]
      exact hP.all h

omit hP in
/-- The processes' headers when `p` takes one. -/
theorem hdr_take (hp : hdr p = none)
    (hmp : ∀ x, hdr x ≠ some mp) (h x : ℕ) : update hdr p (some mp) x = some h ↔
      (h = mp ∧ Place.sending p = .sending x) ∨ (h ≠ mp ∧ hdr x = some h) := by
  rw [update_apply]
  split_ifs with hx
  · rw [hx, hp]
    simp [eq_comm]
  · constructor
    · intro hh
      exact .inr ⟨fun h' => hmp x (h' ▸ hh), hh⟩
    · rintro (⟨-, h'⟩ | ⟨-, h'⟩)
      · exact absurd (Place.sending.inj h').symm hx
      · exact h'

/-- The processes' headers when `p` gives its header away. -/
theorem hdr_give (hp : hdr p = some mp) {place : Place}
    (hplace : ∀ x, place ≠ .sending x) (h x : ℕ) : update hdr p none x = some h ↔
      (h = mp ∧ place = .sending x) ∨ (h ≠ mp ∧ hdr x = some h) := by
  by_cases hx : x = p
  · subst hx
    rw [update_self, hp]
    simp only [reduceCtorEq, Option.some.injEq, false_iff]
    rintro (⟨-, h'⟩ | ⟨h', rfl⟩)
    · exact hplace x h'
    · exact h' rfl
  · rw [update_of_ne hx]
    constructor
    · intro hh
      refine .inr ⟨?_, hh⟩
      rintro rfl
      have h1 := (hP.sending h x).mp hh
      rw [(hP.sending h p).mp hp] at h1
      exact hx (Place.sending.inj (Option.some.inj h1)).symm
    · rintro (⟨-, h'⟩ | ⟨-, h'⟩)
      · exact absurd h' (hplace x)
      · exact h'

end

end placed

/-- The free list is `fl`, the queues are `ql`, header `h` is at `loc h`, and process `p` has
the header `hdr p`. -/
structure Core (cfg : MsgInfo) (s : MsgState) (fl : List ℕ) (ql : ℕ → List ℕ)
    (loc : ℕ → Option Place) (hdr : ℕ → Option ℕ) : Prop where
  free : Linked s.msgNext s.msgfp fl
  queue : ∀ qp, Linked s.msgNext (s.msgFirst qp) (ql qp)
  last : ∀ qp, s.msgLast qp = (ql qp).getLast?
  qnum : ∀ qp, s.msgQnum qp = (ql qp).length
  placed : Placed cfg fl ql loc hdr
  text : ∀ qp, ∀ h ∈ ql qp, 0 ≤ s.msgTs h ∧ s.msgTs h ≤ cfg.msgmax
  type : ∀ qp, ∀ h ∈ ql qp, 1 ≤ s.msgType h ∧ s.msgType h < 2 ^ 31

namespace Core

variable {cfg : MsgInfo} {s t : MsgState} {fl : List ℕ} {ql : ℕ → List ℕ} {loc : ℕ → Option Place}
  {hdr : ℕ → Option ℕ} {p qp h : ℕ}

section

variable (hC : Core cfg s fl ql loc hdr)

include hC

/-- A header is taken from the free list. -/
theorem pop (hfp : s.msgfp = some mp) (hp : hdr p = none) :
    ∃ fl', fl = mp :: fl' ∧ Core cfg { s with msgfp := s.msgNext mp } fl' ql
      (update loc mp (some (.sending p))) (update hdr p (some mp)) := by
  have hfree := hC.free
  rw [hfp] at hfree
  obtain ⟨fl', rfl, hlink⟩ := hfree.pop
  have hP := hC.placed
  have hloc : loc mp = some .free := (hP.free mp).mp mem_cons_self
  obtain ⟨hnew, hnd⟩ := nodup_cons.mp hP.nodupFree
  refine ⟨fl', rfl, hlink, hC.queue, hC.last, hC.qnum, ?_, hC.text, hC.type⟩
  refine hP.move (.sending p) (by simp [hloc]) (fun h => ?_) (fun h qp => ?_)
    (hdr_take hp fun x hx => ?_) hnd hP.nodupQueue
  · constructor
    · intro hh
      exact .inr ⟨fun h' => hnew (h' ▸ hh), mem_cons_of_mem _ hh⟩
    · rintro (⟨-, h'⟩ | ⟨h1, h2⟩)
      · cases h'
      · exact (mem_cons.mp h2).resolve_left h1
  · constructor
    · intro hh
      refine .inr ⟨?_, hh⟩
      rintro rfl
      rw [(hP.queue h qp).mp hh] at hloc
      cases hloc
    · rintro (⟨-, h'⟩ | ⟨-, h2⟩)
      · cases h'
      · exact h2
  · rw [(hP.sending mp x).mp hx] at hloc
    cases hloc

/-- A header is put on the free list. -/
theorem freeHeader (hp : hdr p = some mp) :
    Core cfg (s.freeHeader mp) (mp :: fl) ql (update loc mp (some .free))
      (update hdr p none) := by
  have hP := hC.placed
  have hloc : loc mp = some (.sending p) := (hP.sending mp p).mp hp
  have hfl : mp ∉ fl := by
    intro hm
    rw [(hP.free mp).mp hm] at hloc
    cases hloc
  have hql : ∀ qp, mp ∉ ql qp := by
    intro qp hm
    rw [(hP.queue mp qp).mp hm] at hloc
    cases hloc
  have hother : ∀ x, x ≠ mp → update s.msgNext mp s.msgfp x = s.msgNext x :=
    fun x hx => update_of_ne hx _ _
  refine ⟨?_, fun qp => ?_, hC.last, hC.qnum, ?_, hC.text, hC.type⟩
  · apply hC.free.push
    · intro b hb
      exact hother b fun h => hfl (h ▸ hb)
    · exact update_self _ _ _
  · apply (hC.queue qp).congr
    intro b hb
    exact hother b fun h => hql qp (h ▸ hb)
  · refine hP.move .free (by simp [hloc]) (fun h => ?_) (fun h qp => ?_)
      (hdr_give hP hp (by simp)) (nodup_cons.mpr ⟨hfl, hP.nodupFree⟩) hP.nodupQueue
    · rw [mem_cons]
      constructor
      · rintro (rfl | hh)
        · exact .inl ⟨rfl, rfl⟩
        · exact .inr ⟨fun h' => hfl (h' ▸ hh), hh⟩
      · rintro (⟨rfl, -⟩ | ⟨-, hh⟩)
        · exact .inl rfl
        · exact .inr hh
    · constructor
      · intro hh
        exact .inr ⟨fun h' => hql qp (h' ▸ hh), hh⟩
      · rintro (⟨-, h'⟩ | ⟨-, h2⟩)
        · cases h'
        · exact h2

/-- The message of `p` is put on a queue. -/
theorem enqueue (hp : hdr p = some mp) {cnt type spot : ℤ}
    (hcnt : 0 ≤ cnt ∧ cnt ≤ cfg.msgmax) (htype : 1 ≤ type ∧ type < 2 ^ 31) :
    Core cfg (s.enqueue qp cnt type spot mp) fl (update ql qp (ql qp ++ [mp]))
      (update loc mp (some (.queue qp))) (update hdr p none) := by
  have hP := hC.placed
  have hloc : loc mp = some (.sending p) := (hP.sending mp p).mp hp
  have hfl : mp ∉ fl := by
    intro hm
    rw [(hP.free mp).mp hm] at hloc
    cases hloc
  have hql : ∀ q, mp ∉ ql q := by
    intro q hm
    rw [(hP.queue mp q).mp hm] at hloc
    cases hloc
  have hndq : (ql qp ++ [mp]).Nodup := by
    rw [nodup_append]
    refine ⟨hP.nodupQueue qp, nodup_singleton mp, fun a ha b hb => ?_⟩
    rw [mem_singleton.mp hb]
    rintro rfl
    exact hql qp ha
  have hP' : Placed cfg fl (update ql qp (ql qp ++ [mp]))
      (update loc mp (some (.queue qp))) (update hdr p none) := by
    refine hP.move (.queue qp) (by simp [hloc]) (fun h => ?_) (fun h q => ?_)
      (hdr_give hP hp (by simp)) hP.nodupFree fun q => ?_
    · constructor
      · intro hh
        exact .inr ⟨fun h' => hfl (h' ▸ hh), hh⟩
      · rintro (⟨-, h'⟩ | ⟨-, h2⟩)
        · cases h'
        · exact h2
    · rw [update_apply]
      split_ifs with hq
      · rw [hq, mem_append, mem_singleton]
        constructor
        · rintro (hh | rfl)
          · exact .inr ⟨fun h' => hql qp (h' ▸ hh), hh⟩
          · exact .inl ⟨rfl, rfl⟩
        · rintro (⟨rfl, -⟩ | ⟨-, hh⟩)
          · exact .inr rfl
          · exact .inl hh
      · constructor
        · intro hh
          exact .inr ⟨fun h' => hql q (h' ▸ hh), hh⟩
        · rintro (⟨-, h'⟩ | ⟨-, h2⟩)
          · exact absurd (Place.queue.inj h').symm hq
          · exact h2
    · rw [update_apply]
      split_ifs with hq
      · exact hndq
      · exact hP.nodupQueue q
  have hshort : short cnt = cnt := short_eq (by have := cfg.max_lt; omega)
  have hold : ∀ q h, h ≠ mp → h ∈ update ql qp (ql qp ++ [mp]) q → h ∈ ql q := by
    intro q h hm hh
    by_cases hq : q = qp
    · rw [hq, update_self] at hh
      rw [hq]
      exact (mem_append.mp hh).resolve_right fun h' => hm (mem_singleton.mp h')
    · rwa [update_of_ne hq] at hh
  -- no pointer changes but those of `mp` and of the last message of the queue
  have hnext : ∀ x, x ≠ mp → x ∉ ql qp → (s.enqueue qp cnt type spot mp).msgNext x = s.msgNext x := by
    intro x hx hq
    cases hlast : s.msgLast qp with
    | none =>
      simp only [MsgState.enqueue, hlast]
      exact update_of_ne hx _ _
    | some z =>
      simp only [MsgState.enqueue, hlast]
      have hz : z ∈ ql qp := mem_of_getLast? ((hC.last qp).symm.trans hlast)
      have hxz : x ≠ z := by
        rintro rfl
        exact hq hz
      exact (update_of_ne hxz _ _).trans (update_of_ne hx _ _)
  refine ⟨?_, fun q => ?_, fun q => ?_, fun q => ?_, hP', ?_, ?_⟩
  · apply hC.free.congr
    intro x hx
    apply hnext x fun h => hfl (h ▸ hx)
    intro hq
    have h1 := (hP.free x).mp hx
    rw [(hP.queue x qp).mp hq] at h1
    cases h1
  · rw [update_apply]
    split_ifs with hq
    · subst hq
      have hlast := hC.last q
      have hqueue := hC.queue q
      rcases eq_nil_or_concat (ql q) with hnil | ⟨l, z, hl⟩
      · -- the queue was empty
        rw [hnil] at hlast ⊢
        have hnone : s.msgLast q = none := hlast
        refine ⟨?_, ?_⟩
        · show (if s.msgLast q = none then update s.msgFirst q (some mp)
            else s.msgFirst) q = some mp
          rw [if_pos hnone, update_self]
        · simp only [MsgState.enqueue, hnone]
          exact update_self _ _ _
      · rw [concat_eq_append] at hl
        have hsome : s.msgLast q = some z := by rw [hlast, hl, List.getLast?_append]; rfl
        have hzmp : mp ≠ z := by
          rintro rfl
          exact hql q (by simp [hl])
        have hzl : z ∉ l := by
          have := hP.nodupQueue q
          rw [hl] at this
          intro hz
          exact (nodup_append.mp this).2.2 z hz z mem_cons_self rfl
        have hN : ∀ x, (s.enqueue q cnt type spot mp).msgNext x =
            update (update s.msgNext mp none) z (some mp) x := by
          intro x
          simp only [MsgState.enqueue, hsome]
        have hfirst : (s.enqueue q cnt type spot mp).msgFirst q = s.msgFirst q := by
          show (if s.msgLast q = none then update s.msgFirst q (some mp)
            else s.msgFirst) q = _
          rw [if_neg (by simp [hsome])]
        rw [hfirst, hl, append_assoc]
        rw [hl] at hqueue
        apply hqueue.snoc
        · intro b hb
          rw [hN, update_of_ne (fun h : b = z => hzl (h ▸ hb)), update_of_ne]
          rintro rfl
          exact hql q (by rw [hl]; exact mem_append_left _ hb)
        · rw [hN, update_self]
        · rw [hN, update_of_ne hzmp, update_self]
    · have hfirst : (s.enqueue qp cnt type spot mp).msgFirst q = s.msgFirst q := by
        show (if s.msgLast qp = none then update s.msgFirst qp (some mp)
          else s.msgFirst) q = _
        split_ifs
        · exact update_of_ne hq _ _
        · rfl
      rw [hfirst]
      apply (hC.queue q).congr
      intro x hx
      apply hnext x fun h => hql q (h ▸ hx)
      intro hxq
      have h1 := (hP.queue x q).mp hx
      rw [(hP.queue x qp).mp hxq] at h1
      exact hq (Place.queue.inj (Option.some.inj h1)).symm
  · show update s.msgLast qp (some mp) q = (update ql qp (ql qp ++ [mp]) q).getLast?
    by_cases hq : q = qp
    · rw [hq, update_self, update_self, List.getLast?_append]
      rfl
    · rw [update_of_ne hq, update_of_ne hq]
      exact hC.last q
  · show update s.msgQnum qp (ushort (s.msgQnum qp + 1)) q =
      (update ql qp (ql qp ++ [mp]) q).length
    have hlen := @Placed.length_queue _ _ _ _ _ qp hP'
    by_cases hq : q = qp
    · rw [update_self, length_append, length_singleton] at hlen
      have := ushort_eq (x := (s.msgQnum qp : ℤ) + 1) (by have := cfg.tql_lt; rw [hC.qnum]; omega)
      rw [hq, update_self, update_self, length_append, length_singleton,
        ← hC.qnum]
      omega
    · rw [update_of_ne hq, update_of_ne hq]
      exact hC.qnum q
  · intro q h hh
    show 0 ≤ update s.msgTs mp (short cnt) h ∧ update s.msgTs mp (short cnt) h ≤ _
    rw [update_apply]
    split_ifs with hm
    · rw [hshort]
      exact hcnt
    · exact hC.text q h (hold q h hm hh)
  · intro q h hh
    show 1 ≤ update s.msgType mp type h ∧ update s.msgType mp type h < _
    rw [update_apply]
    split_ifs with hm
    · exact htype
    · exact hC.type q h (hold q h hm hh)

/-- A message is unlinked from its queue; `p` has its header then. -/
theorem unlink (hp : hdr p = none) (hq : ql qp = l₁ ++ mp :: l₂) :
    Core cfg ((s.unlink qp l₁.getLast? mp).setQnum qp (s.msgQnum qp - 1)) fl
      (update ql qp (l₁ ++ l₂)) (update loc mp (some (.sending p)))
      (update hdr p (some mp)) := by
  have hP := hC.placed
  have hmem : mp ∈ ql qp := by simp [hq]
  have hloc : loc mp = some (.queue qp) := (hP.queue mp qp).mp hmem
  have hnd := hP.nodupQueue qp
  rw [hq] at hnd
  obtain ⟨hmp, hnd'⟩ := nodup_cons.mp (nodup_middle.mp hnd)
  have hin : ∀ q h, h ∈ update ql qp (l₁ ++ l₂) q ↔ h ≠ mp ∧ h ∈ ql q := by
    intro q h
    rw [update_apply]
    split_ifs with hqq
    · rw [hqq, hq]
      constructor
      · intro hh
        refine ⟨fun h' => hmp (h' ▸ hh), ?_⟩
        rcases mem_append.mp hh with hh | hh
        · exact mem_append_left _ hh
        · exact mem_append_right _ (mem_cons_of_mem _ hh)
      · rintro ⟨hne, hh⟩
        rcases mem_append.mp hh with hh | hh
        · exact mem_append_left _ hh
        · exact mem_append_right _ ((mem_cons.mp hh).resolve_left hne)
    · refine ⟨fun hh => ⟨?_, hh⟩, fun hh => hh.2⟩
      rintro rfl
      rw [(hP.queue h q).mp hh] at hloc
      exact hqq (Place.queue.inj (Option.some.inj hloc))
  have hP' : Placed cfg fl (update ql qp (l₁ ++ l₂))
      (update loc mp (some (.sending p))) (update hdr p (some mp)) := by
    refine hP.move (.sending p) (by simp [hloc]) (fun h => ?_) (fun h q => ?_)
      (hdr_take hp fun x hx => ?_) hP.nodupFree fun q => ?_
    · constructor
      · intro hh
        refine .inr ⟨?_, hh⟩
        rintro rfl
        rw [(hP.free h).mp hh] at hloc
        cases hloc
      · rintro (⟨-, h'⟩ | ⟨-, h2⟩)
        · cases h'
        · exact h2
    · rw [hin]
      constructor
      · exact .inr
      · rintro (⟨-, h'⟩ | h')
        · cases h'
        · exact h'
    · rw [(hP.sending mp x).mp hx] at hloc
      cases hloc
    · rw [update_apply]
      split_ifs with hqq
      · subst hqq
        exact hnd'
      · exact hP.nodupQueue q
  have hqueue := hC.queue qp
  rw [hq] at hqueue
  have hnextmp : s.msgNext mp = l₂.head? := hqueue.next_eq
  -- no pointer changes but that of the message before
  have hnext : ∀ x, x ∉ l₁ → (s.unlink qp l₁.getLast? mp).msgNext x = s.msgNext x := by
    intro x hx
    cases hl : l₁.getLast? with
    | none => rfl
    | some z =>
      simp only [MsgState.unlink]
      refine update_of_ne ?_ _ _
      rintro rfl
      exact hx (mem_of_getLast? hl)
  have hl₁ : ∀ x ∈ l₁, loc x = some (.queue qp) :=
    fun x hx => (hP.queue x qp).mp (by rw [hq]; exact mem_append_left _ hx)
  refine ⟨?_, fun q => ?_, fun q => ?_, fun q => ?_, hP', ?_, ?_⟩
  · apply hC.free.congr
    intro x hx
    apply hnext
    intro h1
    have h2 := hl₁ x h1
    rw [(hP.free x).mp hx] at h2
    cases h2
  · by_cases hqq : q = qp
    · subst hqq
      rw [update_self]
      rcases eq_nil_or_concat l₁ with rfl | ⟨l, z, rfl⟩
      · -- `mp` was the first message
        have hfirst : (s.unlink q none mp).msgFirst q = s.msgNext mp := by
          show (if (none : Option ℕ) = none then update s.msgFirst q (s.msgNext mp)
            else s.msgFirst) q = _
          rw [if_pos rfl, update_self]
        show Linked s.msgNext ((s.unlink q none mp).msgFirst q) ([] ++ l₂)
        rw [hfirst]
        exact hqueue.2
      · rw [concat_eq_append] at hqueue hmp hnd ⊢
        have hlast : (l ++ [z]).getLast? = some z := by simp
        rw [hlast]
        have hzl : z ∉ l ++ l₂ := by
          rw [append_assoc] at hnd
          have := (nodup_cons.mp (@nodup_middle _ z l (mp :: l₂) |>.mp hnd)).1
          intro hz
          apply this
          rcases mem_append.mp hz with hz | hz
          · exact mem_append_left _ hz
          · exact mem_append_right _ (mem_cons_of_mem _ hz)
        show Linked (update s.msgNext z (s.msgNext mp)) (s.msgFirst q) (l ++ [z] ++ l₂)
        rw [append_assoc] at hqueue ⊢
        apply hqueue.delete
        · intro b hb
          exact update_of_ne (fun h : b = z => hzl (h ▸ hb)) _ _
        · exact update_self _ _ _
    · rw [update_of_ne hqq]
      have hfirst : ((s.unlink qp l₁.getLast? mp).setQnum qp (s.msgQnum qp - 1)).msgFirst q =
          s.msgFirst q := by
        show (if l₁.getLast? = none then update s.msgFirst qp (s.msgNext mp)
          else s.msgFirst) q = _
        split_ifs
        · exact update_of_ne hqq _ _
        · rfl
      rw [hfirst]
      apply (hC.queue q).congr
      intro x hx
      apply hnext
      intro h1
      have h2 := hl₁ x h1
      rw [(hP.queue x q).mp hx] at h2
      exact hqq (Place.queue.inj (Option.some.inj h2))
  · show (if s.msgNext mp = none then update s.msgLast qp l₁.getLast? else s.msgLast) q = _
    by_cases hqq : q = qp
    · rw [hqq, update_self]
      cases l₂ with
      | nil =>
        rw [if_pos (show s.msgNext mp = none from hnextmp), update_self, append_nil]
      | cons b l₂ =>
        rw [if_neg (by simp [hnextmp]), hC.last, hq]
        simp [List.getLast?_append, List.getLast?_cons]
    · rw [update_of_ne hqq]
      split_ifs
      · rw [update_of_ne hqq]
        exact hC.last q
      · exact hC.last q
  · show update s.msgQnum qp (ushort (s.msgQnum qp - 1)) q = _
    by_cases hqq : q = qp
    · have hlen : (ql qp).length = l₁.length + l₂.length + 1 := by
        rw [hq, length_append, length_cons]
        omega
      have hmax := @Placed.length_queue _ _ _ _ _ qp hP
      have hus := ushort_eq (x := (s.msgQnum qp : ℤ) - 1)
        (by have := cfg.tql_lt; rw [hC.qnum]; omega)
      rw [hqq, update_self, update_self, length_append]
      rw [hC.qnum] at hus ⊢
      omega
    · rw [update_of_ne hqq, update_of_ne hqq]
      exact hC.qnum q
  · intro q h hh
    exact hC.text q h ((hin q h).mp hh).2
  · intro q h hh
    exact hC.type q h ((hin q h).mp hh).2

end

end Core

/-! ## The segments -/

/-- The segments of a text of `size` bytes that starts at segment `a`, counted from 1. -/
def MsgInfo.seg (cfg : MsgInfo) (size a : ℤ) : Option Extent :=
  if size = 0 then none else some ⟨a.toNat, cfg.btoq size.toNat⟩

/-- The header that a process has taken. -/
def MsgProc.header : MsgProc → Option ℕ
  | .sndMove _ _ _ mp _ => some mp
  | _ => none

/-- The segments that a process has taken. -/
def MsgProc.text (cfg : MsgInfo) : MsgProc → Option Extent
  | .sndMove a _ _ _ spot => cfg.seg a.msgsz spot
  | _ => none

/-- The segments that belong to a header where it is. -/
def MsgState.seg (cfg : MsgInfo) (s : MsgState) (loc : ℕ → Option Place) (h : ℕ) : Option Extent :=
  match loc h with
  | some (.queue _) => cfg.seg (s.msgTs h) (s.msgSpot h + 1)
  | some (.sending p) => (s.proc p).text cfg
  | _ => none

theorem MsgProc.text_of_header {cfg : MsgInfo} {x : MsgProc} (h : x.header = none) :
    x.text cfg = none := by
  cases x <;> first | rfl | cases h

/-- The map, the number of ranges lost, and the segments of every header. -/
structure Texts where
  map : Os.RMap
  lost : ℕ
  seg : ℕ → Option Extent

/-- The map and the segments of a state. -/
def MsgState.texts (cfg : MsgInfo) (s : MsgState) (loc : ℕ → Option Place) : Texts :=
  ⟨s.msgmap, s.lost, s.seg cfg loc⟩

/-- What a step does with the map and the segments: nothing (but for the sleep flag), nothing
because `malloc` failed, a header gets segments, or a header gives them back. -/
inductive Texts.Change (cfg : MsgInfo) : Texts → Texts → Prop
  | same {x y : Texts} (hmap : y.map.mapsize = x.map.mapsize ∧ y.map.slots = x.map.slots)
      (hlost : y.lost = x.lost) (hseg : y.seg = x.seg) : Change cfg x y
  | failed {x y : Texts} (size : ℕ) (m : Os.RMap) (hm : Os.malloc x.map size = some (0, m))
      (hmap : y.map.mapsize = m.mapsize ∧ y.map.slots = m.slots)
      (hlost : y.lost = x.lost) (hseg : y.seg = x.seg) : Change cfg x y
  | took {x y : Texts} (mp size spot : ℕ) (hmp : mp < cfg.msgtql) (hnone : x.seg mp = none)
      (hspot : spot ≠ 0) (hmap : Os.malloc x.map size = some (spot, y.map))
      (hlost : y.lost = x.lost) (hseg : y.seg = update x.seg mp (some ⟨spot, size⟩)) :
      Change cfg x y
  | gave {x y : Texts} (mp : ℕ) (e : Extent) (r : Os.RMap × Os.Mfree) (hmp : mp < cfg.msgtql)
      (hsome : x.seg mp = some e) (hr : Os.mfree x.map e.len e.base = some r) (hmap : y.map = r.1)
      (hlost : y.lost = x.lost + if r.2 = .overflow then 1 else 0)
      (hseg : y.seg = update x.seg mp none) : Change cfg x y
  | trans {x y z : Texts} (hxy : Change cfg x y) (hyz : Change cfg y z) : Change cfg x z

theorem Texts.Change.refl {cfg : MsgInfo} (x : Texts) : Texts.Change cfg x x :=
  .same ⟨rfl, rfl⟩ rfl rfl

/-- A header moves, and the others keep their segments. -/
theorem seg_move {cfg : MsgInfo} {s t : MsgState} {loc : ℕ → Option Place} (place : Place)
    (htext : ∀ h qp, h ≠ mp → loc h = some (.queue qp) →
      t.msgTs h = s.msgTs h ∧ t.msgSpot h = s.msgSpot h)
    (hproc : ∀ h p, h ≠ mp → loc h = some (.sending p) → (t.proc p).text cfg = (s.proc p).text cfg) :
    t.seg cfg (update loc mp (some place)) =
      update (s.seg cfg loc) mp (t.seg cfg (fun _ => some place) mp) := by
  funext h
  rw [update_apply]
  split_ifs with hh
  · subst hh
    unfold MsgState.seg
    rw [update_self]
  · unfold MsgState.seg
    rw [update_of_ne hh]
    cases hloc : loc h with
    | none => rfl
    | some pl =>
      cases pl with
      | free => rfl
      | queue qp =>
        obtain ⟨h1, h2⟩ := htext h qp hh hloc
        show cfg.seg (t.msgTs h) (t.msgSpot h + 1) = _
        rw [h1, h2]
      | sending p => exact hproc h p hh hloc

/-! ## `msgfree` -/

namespace MsgState

/-- The messages of a queue, from `msg_first` on. -/
def queue (cfg : MsgInfo) (s : MsgState) (qp : ℕ) : List ℕ :=
  walk s.msgNext cfg.msgtql (s.msgFirst qp)

variable {cfg : MsgInfo} {s t : MsgState} {fl : List ℕ} {ql : ℕ → List ℕ} {loc : ℕ → Option Place}
  {hdr : ℕ → Option ℕ} {p qp h : ℕ}

theorem queue_eq (hC : Core cfg s fl ql loc hdr) : s.queue cfg = ql := by
  funext qp
  exact (hC.queue qp).walk_eq hC.placed.length_queue

/-- What the lists and the map have nothing to do with. -/
def rest (s : MsgState) : ((ℕ → ℤ) × (ℕ → ℤ) × (ℕ → ℤ)) × ((ℕ → Bool) × (ℕ → ℕ) × (ℕ → Bool)) ×
    ((ℕ → ℕ) × (ℕ → ℕ)) × ((ℕ → Bool) × (ℕ → MsgProc)) × (ℕ → ℕ) × ℕ × List ℕ :=
  ((s.msgType, s.msgTs, s.msgSpot), (s.ipcAlloc, s.seq, s.msgRwait), (s.msgCbytes, s.msgQbytes),
    (s.msglock, s.proc), s.serial, s.sent, s.delivered)

/-- What `msgfree` leaves as it is, and whom it wakes. -/
structure Freed (s : MsgState) (qp : ℕ) (t : MsgState) : Prop where
  rest : t.rest = s.rest
  wwait : ∀ q, q ≠ qp → t.msgWwait q = s.msgWwait q
  slp : ∀ x ch, t.slp x = some ch → s.slp x = some ch
  woken : (∀ x, s.slp x = some (.room qp) → s.msgWwait qp = true) →
    ∀ x, t.slp x ≠ some (.room qp)

theorem Freed.then {u : MsgState} (h : s.Freed qp u) (hrest : t.rest = u.rest)
    (hww : t.msgWwait = u.msgWwait) (hslp : ∀ x ch, t.slp x = some ch → u.slp x = some ch) :
    s.Freed qp t := by
  refine ⟨hrest.trans h.rest, fun q hq => ?_, fun x ch hx => h.slp x ch (hslp x ch hx),
    fun hw x hx => h.woken hw x (hslp x _ hx)⟩
  rw [hww]
  exact h.wwait q hq

/-- The predecessor that the calls pass is right. -/
theorem fixPrev_eq (hlink : Linked s.msgNext (s.msgFirst qp) (l₁ ++ mp :: l₂)) :
    s.fixPrev cfg qp l₁.getLast? mp = some l₁.getLast? := by
  unfold fixPrev
  rw [if_neg]
  rintro (⟨h1, h2⟩ | ⟨z, h1, h2⟩)
  · rw [List.getLast?_eq_none_iff.mp h1] at hlink
    exact h2 hlink.1
  · obtain ⟨l, rfl⟩ := List.getLast?_eq_some_iff.mp h1
    rw [append_assoc] at hlink
    exact h2 (@Linked.next_eq _ _ _ z l (mp :: l₂) hlink)

theorem slp_of_wakeup {ch ch' : MsgChan} {b : Bool} {x : ℕ}
    (hx : (s.wakeup ch b).slp x = some ch') : s.slp x = some ch' := by
  have hx' : (if b ∧ s.slp x = some ch then none else s.slp x) = some ch' := hx
  split_ifs at hx'
  exact hx'

theorem wakeup_wakes {ch : MsgChan} {b : Bool} {x : ℕ} (hb : s.slp x = some ch → b = true) :
    (s.wakeup ch b).slp x ≠ some ch := by
  intro hx
  have hx' : (if b ∧ s.slp x = some ch then none else s.slp x) = some ch := hx
  by_cases hs : s.slp x = some ch
  · rw [if_pos ⟨hb hs, hs⟩] at hx'
    cases hx'
  · rw [if_neg fun h => hs h.2] at hx'
    exact hs hx'

theorem freed_unlink {z : Option ℕ} :
    s.Freed qp (((s.unlink qp z mp).setQnum qp (s.msgQnum qp - 1)).wakeWriters qp) :=
  ⟨rfl, fun _ hq => update_of_ne hq _ _, fun _ _ hx => slp_of_wakeup hx,
    fun hw x => wakeup_wakes fun hx => hw x hx⟩

theorem Freed.mfree {u : MsgState} {size a : ℕ} (h : s.Freed qp u)
    (hu : u.mfree size a = some t) : s.Freed qp t := by
  obtain ⟨r, -, rfl⟩ := map_eq_some_iff.mp hu
  exact h.then rfl rfl fun _ _ hx => slp_of_wakeup hx

theorem Freed.freeHeader {u : MsgState} (h : s.Freed qp u) : s.Freed qp (u.freeHeader mp) :=
  h.then rfl rfl fun _ _ hx => slp_of_wakeup hx

/-- **A message is freed**: it leaves its queue for the free list. -/
theorem msgfree_spec (hC : Core cfg s fl ql loc hdr) (hp : hdr p = none)
    (hq : ql qp = l₁ ++ mp :: l₂) (ht : s.msgfree cfg qp l₁.getLast? mp = some t) :
    Core cfg t (mp :: fl) (update ql qp (l₁ ++ l₂)) (update loc mp (some .free)) hdr ∧
      s.Freed qp t ∧
      (s.msgTs mp = 0 ∧ t.msgmap = s.msgmap ∧ t.lost = s.lost ∨
        s.msgTs mp ≠ 0 ∧ ∃ r, Os.mfree s.msgmap (cfg.btoq (s.msgTs mp).toNat)
          (s.msgSpot mp + 1).toNat = some r ∧ t.msgmap = r.1 ∧
          t.lost = s.lost + if r.2 = .overflow then 1 else 0) := by
  have hlink := hC.queue qp
  rw [hq] at hlink
  unfold msgfree at ht
  rw [fixPrev_eq hlink, bind_some] at ht
  have hU := hC.unlink (p := p) hp hq
  have hback : update (update hdr p (some mp)) p none = hdr := by
    rw [update_idem, ← hp, update_eq_self]
  have hloc : update (update loc mp (some (.sending p))) mp (some .free) =
      update loc mp (some .free) := update_idem _ _ _
  have hfree : ∀ u : MsgState, Core cfg u fl (update ql qp (l₁ ++ l₂))
      (update loc mp (some (.sending p))) (update hdr p (some mp)) →
      Core cfg (u.freeHeader mp) (mp :: fl) (update ql qp (l₁ ++ l₂))
        (update loc mp (some .free)) hdr := by
    intro u hu
    have := hu.freeHeader (update_self p (some mp) hdr)
    rwa [hback, hloc] at this
  dsimp only at ht
  by_cases hts : s.msgTs mp = 0
  · have hts' : (((s.unlink qp l₁.getLast? mp).setQnum qp (s.msgQnum qp - 1)).wakeWriters qp).msgTs mp
        = 0 := hts
    rw [if_neg (not_not.mpr hts')] at ht
    obtain rfl := Option.some.inj ht
    refine ⟨hfree _ ⟨hU.1, hU.2, hU.3, hU.4, hU.5, hU.6, hU.7⟩, ?_, .inl ⟨hts, rfl, rfl⟩⟩
    exact freed_unlink.freeHeader
  · have hts' : (((s.unlink qp l₁.getLast? mp).setQnum qp (s.msgQnum qp - 1)).wakeWriters qp).msgTs mp
        ≠ 0 := hts
    rw [if_pos hts'] at ht
    obtain ⟨u, hu, rfl⟩ := map_eq_some_iff.mp ht
    have hF : s.Freed qp (u.freeHeader mp) := (freed_unlink.mfree hu).freeHeader
    obtain ⟨r, hr, rfl⟩ := map_eq_some_iff.mp hu
    exact ⟨hfree _ ⟨hU.1, hU.2, hU.3, hU.4, hU.5, hU.6, hU.7⟩, hF, .inr ⟨hts, r, hr, rfl, rfl⟩⟩

/-- A message that is freed gives its segments back. -/
theorem msgfree_texts (hC : Core cfg s fl ql loc hdr) (hp : hdr p = none)
    (hq : ql qp = l₁ ++ mp :: l₂) (ht : s.msgfree cfg qp l₁.getLast? mp = some t) :
    Texts.Change cfg (s.texts cfg loc) (t.texts cfg (update loc mp (some .free))) := by
  obtain ⟨-, hF, hmap⟩ := msgfree_spec hC hp hq ht
  have hrest := hF.rest
  simp only [rest, Prod.mk.injEq] at hrest
  obtain ⟨⟨-, hts, hsp⟩, -, -, ⟨-, hpr⟩, -⟩ := hrest
  have hloc : loc mp = some (.queue qp) := (hC.placed.queue mp qp).mp (by simp [hq])
  have hmp : mp < cfg.msgtql := (hC.placed.all mp).mp (by simp [hloc])
  have hseg : t.seg cfg (update loc mp (some .free)) =
      update (s.seg cfg loc) mp none :=
    seg_move .free (fun h q _ _ => by rw [hts, hsp]; exact ⟨rfl, rfl⟩)
      (fun h y _ _ => by rw [hpr])
  have hold : s.seg cfg loc mp = cfg.seg (s.msgTs mp) (s.msgSpot mp + 1) := by
    unfold MsgState.seg
    rw [hloc]
  rcases hmap with ⟨h0, hm, hl⟩ | ⟨h0, r, hr, hm, hl⟩
  · have hsame : t.msgmap.mapsize = s.msgmap.mapsize ∧ t.msgmap.slots = s.msgmap.slots := by
      rw [hm]
      exact ⟨rfl, rfl⟩
    refine .same hsame hl ?_
    show t.seg cfg _ = s.seg cfg loc
    rw [hseg, ← show s.seg cfg loc mp = none by rw [hold, MsgInfo.seg, if_pos h0],
      update_eq_self]
  · exact .gave mp ⟨(s.msgSpot mp + 1).toNat, cfg.btoq (s.msgTs mp).toNat⟩ r hmp
      (by rw [show (s.texts cfg loc).seg mp = _ from hold, MsgInfo.seg, if_neg h0]) hr hm hl hseg

/-- **All messages of a queue are freed.** -/
theorem freeAll_spec {n : ℕ} {l : List ℕ} (hC : Core cfg s fl ql loc hdr) (hp : hdr p = none)
    (hq : ql qp = l) (ht : freeAll cfg qp n s = some t) :
    ∃ fl' loc', Core cfg t fl' (update ql qp []) loc' hdr ∧ t.rest = s.rest ∧
      (∀ q, q ≠ qp → t.msgWwait q = s.msgWwait q) ∧
      (∀ x ch, t.slp x = some ch → s.slp x = some ch) ∧
      ((∀ x, s.slp x = some (.room qp) → s.msgWwait qp = true) →
        ∀ x, t.slp x = some (.room qp) → t.msgWwait qp = true) ∧
      Texts.Change cfg (s.texts cfg loc) (t.texts cfg loc') := by
  induction l generalizing n s fl ql loc with
  | nil =>
    have hfirst : s.msgFirst qp = none := by
      have := hC.queue qp
      rwa [hq] at this
    have hst : s = t := by
      cases n with
      | zero =>
        unfold freeAll at ht
        rw [if_pos hfirst] at ht
        exact Option.some.inj ht
      | succ n =>
        unfold freeAll at ht
        rw [hfirst] at ht
        exact Option.some.inj ht
    subst hst
    rw [← hq, update_eq_self]
    exact ⟨fl, loc, hC, rfl, fun _ _ => rfl, fun _ _ hx => hx, fun hw => hw, .refl _⟩
  | cons m l ih =>
    have hfirst : s.msgFirst qp = some m := by
      have := hC.queue qp
      rw [hq] at this
      exact this.1
    cases n with
    | zero =>
      unfold freeAll at ht
      rw [if_neg (by simp [hfirst])] at ht
      cases ht
    | succ n =>
      unfold freeAll at ht
      rw [hfirst] at ht
      obtain ⟨u, hu, ht⟩ := bind_eq_some_iff.mp ht
      obtain ⟨hC', hF, -⟩ := @msgfree_spec [] l m cfg s u fl ql loc hdr p qp hC hp hq hu
      have htexts := @msgfree_texts [] l m cfg s u fl ql loc hdr p qp hC hp hq hu
      obtain ⟨fl', loc', hC'', hrest, hww, hslp, hwoken, htexts'⟩ := ih hC' (update_self _ _ _) ht
      rw [update_idem] at hC''
      exact ⟨fl', loc', hC'', hrest.trans hF.rest, fun q hq => (hww q hq).trans (hF.wwait q hq),
        fun x ch hx => hF.slp x ch (hslp x ch hx),
        fun hw => hwoken fun x hx => absurd hx (hF.woken hw x), htexts.trans htexts'⟩

end MsgState

end Io
