import OpusSysV.Cmd.Elm
import Mathlib.Data.List.Pairwise
import Mathlib.Data.List.TakeDrop
import Mathlib.Data.Int.Order.Basic

/-!
# The event list of `cron`: adding

What the three levels of the list are, and that adding an event keeps them.

* `Block` — a key with the notices of its sublist; `Keyed` — the keys and the index over a list of
  blocks; `Listed` — the notices as a list linked both ways; `Ordered` — their times.
* `Shape` — the three levels; `Rep` — with `current`.
* `findKey_eq`, `splitKey_spec`, `insertNotice_spec` — the parts of `el_add`, and `el_add_spec`.
-/

namespace Cmd.Elm

open Lib Function List

/-! ## The three levels -/

/-- A key and the addresses of its notices, `init ++ [last]`. -/
structure Block where
  key : ℕ
  init : List ℕ
  last : ℕ

namespace Block

def notices (b : Block) : List ℕ := b.init ++ [b.last]

end Block

/-- The notices of a list of blocks, in order. -/
def notices (B : List Block) : List ℕ := B.flatMap Block.notices

/-- The keys. -/
def keys (B : List Block) : List ℕ := B.map Block.key

/-- A key points to the last of its notices, with its time and their number; the others have no
key. -/
structure BlockOk (s : El) (b : Block) : Prop where
  notice : s.key.notice b.key = b.last
  time : s.key.time b.key = s.notice.time b.last
  numnote : s.key.numnote b.key = b.init.length + 1
  limit : (b.init.length : ℤ) + 1 ≤ s.NLIM
  back : s.notice.key b.last = some b.key
  inner : ∀ n ∈ b.init, s.notice.key n = none ∧ s.notice.isdummy n = false

/-- The block of a dummy notice. -/
def dummyBlock (s : El) (b : Block) : Bool := s.notice.isdummy b.last

/-- The keys, in order, and the index `I`, which has the keys of the dummy notices but the first. -/
structure Keyed (s : El) (B : List Block) (I : List ℕ) : Prop where
  block : ∀ b ∈ B, BlockOk s b
  linked : Doubly s.key.right s.key.left (keys B).head? (keys B).getLast? (keys B)
  nodup : (keys B).Nodup
  avail : ∀ k ∈ keys B, k < s.avail
  index : Linked s.ind.right s.index I
  indNodup : I.Nodup
  indAvail : ∀ i ∈ I, i < s.avail
  indKey : I.map s.ind.key = (B.tail.filter (dummyBlock s)).map Block.key
  first : ∃ b B', B = b :: B' ∧ b.init = [] ∧ s.notice.isdummy b.last = true

/-- The notices, linked both ways. -/
structure Listed (s : El) (N : List ℕ) : Prop where
  linked : Doubly s.notice.right s.notice.left N.head? N.getLast? N
  nodup : N.Nodup
  avail : ∀ n ∈ N, n < s.avail

/-- A notice is not later than another, and a dummy notice is before an event. -/
def Before (s : El) (x y : ℕ) : Prop :=
  s.notice.time x ≤ s.notice.time y ∧
    (s.notice.isdummy y = true → s.notice.isdummy x = false → s.notice.time x < s.notice.time y)

/-- Where the intervals end: `DU - 1` of them from number `j` on, and the last one. -/
def ends (s : El) (j : ℕ) : List ℤ :=
  (List.range (s.DU - 1).toNat).map (fun i => s.LB + (j + i : ℕ) * s.DT) ++ [INFINITY]

/-- The notices are sorted by time, and what the times are. -/
structure Ordered (s : El) (N : List ℕ) (j : ℕ) : Prop where
  sorted : N.Pairwise (Before s)
  ends : (N.filter s.notice.isdummy).map s.notice.time = s.LB :: ends s j
  real : ∀ n ∈ N, s.notice.isdummy n = false → s.LB ≤ s.notice.time n ∧ s.notice.time n < INFINITY

/-- The events of a list of notices. -/
def real (s : El) (N : List ℕ) : List ℕ := N.filter fun n => !s.notice.isdummy n

/-- The event of a notice. -/
def event (s : El) (n : ℕ) : Event := ⟨s.notice.time n, s.notice.id n, s.notice.event n⟩

/-- The events, in order. -/
def queue (s : El) (B : List Block) : List Event := (real s (notices B)).map (event s)

/-- The parameters. -/
def params (s : El) : ℤ × ℤ × ℤ × ℤ := (s.DU, s.LB, s.DT, s.NLIM)

/-- The three levels with blocks `B` and index `I`, when interval number `j` is the first. -/
structure Shape (s : El) (B : List Block) (I : List ℕ) (j : ℕ) : Prop where
  keyed : Keyed s B I
  listed : Listed s (notices B)
  ordered : Ordered s (notices B) j
  pos : 1 ≤ j
  nlim : 2 ≤ s.NLIM

/-- The event list: the three levels, and `current` is the first event. -/
structure Rep (s : El) (B : List Block) (I : List ℕ) (j : ℕ) : Prop extends Shape s B I j where
  current : s.current = (real s (notices B)).head?

section lists

variable {B P Q : List Block} {b : Block}

@[simp] theorem notices_nil : notices [] = [] := rfl

@[simp] theorem notices_cons : notices (b :: B) = b.init ++ b.last :: notices B := by
  simp [notices, Block.notices]

@[simp] theorem notices_append : notices (P ++ Q) = notices P ++ notices Q := by simp [notices]

@[simp] theorem keys_nil : keys [] = [] := rfl

@[simp] theorem keys_cons : keys (b :: B) = b.key :: keys B := rfl

@[simp] theorem keys_append (P Q : List Block) : keys (P ++ Q) = keys P ++ keys Q := by simp [keys]

theorem last_mem_notices (h : b ∈ B) : b.last ∈ notices B :=
  mem_flatMap.mpr ⟨b, h, by simp [Block.notices]⟩

theorem init_mem_notices {n : ℕ} (h : b ∈ B) (hn : n ∈ b.init) : n ∈ notices B :=
  mem_flatMap.mpr ⟨b, h, by simp [Block.notices, hn]⟩

theorem key_mem_keys (h : b ∈ B) : b.key ∈ keys B := mem_map_of_mem h

/-- The notices of a block are not those of another one. -/
theorem not_mem_other {c : Block} {n : ℕ} (h : (notices (P ++ b :: Q)).Nodup) (hc : c ∈ P ++ Q)
    (hn : n ∈ b.notices) : n ∉ c.notices := by
  intro hm
  rw [notices_append, show notices (b :: Q) = b.notices ++ notices Q from rfl] at h
  rcases mem_append.mp hc with hc | hc
  · exact disjoint_of_nodup_append h (mem_flatMap.mpr ⟨c, hc, hm⟩)
      (mem_append_left _ hn)
  · exact disjoint_of_nodup_append h.of_append_right hn (mem_flatMap.mpr ⟨c, hc, hm⟩)

/-- Nor is its key. -/
theorem key_ne_other {c : Block} (h : (keys (P ++ b :: Q)).Nodup) (hc : c ∈ P ++ Q) :
    c.key ≠ b.key := by
  intro he
  rw [keys_append, keys_cons] at h
  rcases mem_append.mp hc with hc | hc
  · exact disjoint_of_nodup_append h (key_mem_keys hc) (by simp [he])
  · exact (nodup_cons.mp h.of_append_right).1 (he ▸ key_mem_keys hc)

end lists

section ordered

variable {s : El} {N N₁ N₂ I : List ℕ} {B P Q : List Block} {b : Block} {j n : ℕ} {t : ℤ}

theorem Listed.length_le (h : Listed s N) : N.length ≤ s.cells := length_le_of_lt h.nodup h.avail

theorem Keyed.length_le (h : Keyed s B I) : (keys B).length ≤ s.cells :=
  length_le_of_lt h.nodup h.avail

theorem Keyed.ind_length_le (h : Keyed s B I) : I.length ≤ s.cells :=
  length_le_of_lt h.indNodup h.indAvail

theorem lasts_sublist (B : List Block) : (B.map Block.last).Sublist (notices B) := by
  induction B with
  | nil => exact List.Sublist.slnil
  | cons b B ih =>
    rw [notices_cons, map_cons]
    exact (ih.cons_cons _).trans (sublist_append_right _ _)

/-- A time cuts the blocks in two: those whose key is not later, and those whose key is. -/
theorem Shape.split (h : Shape s B I j) (t : ℤ) : ∃ P Q, B = P ++ Q ∧
    (∀ b ∈ P, s.notice.time b.last ≤ t) ∧ ∀ b ∈ Q, t < s.notice.time b.last := by
  refine sorted_split (fun b : Block => s.notice.time b.last) t ?_
  have hp := h.ordered.sorted.sublist (lasts_sublist B)
  rw [pairwise_map] at hp
  exact hp.imp fun hb => hb.1

/-- All notices of a block are before its last one. -/
theorem init_before {R : ℕ → ℕ → Prop} (h : (notices B).Pairwise R) (hb : b ∈ B) (hn : n ∈ b.init) :
    R n b.last := by
  have hp := (pairwise_flatMap.mp h).1 b hb
  exact (pairwise_append.mp hp).2.2 n hn b.last (by simp)

/-- All notices of blocks whose key is not later than `t` are not. -/
theorem le_of_lasts (h : (notices B).Pairwise (Before s))
    (hP : ∀ b ∈ B, s.notice.time b.last ≤ t) : ∀ n ∈ notices B, s.notice.time n ≤ t := by
  intro n hn
  obtain ⟨b, hb, hn⟩ := mem_flatMap.mp hn
  rcases mem_append.mp hn with hn | hn
  · exact Int.le_trans (init_before h hb hn).1 (hP b hb)
  · rw [mem_singleton.mp hn]
    exact hP b hb

/-- The dummy notices are the last ones of their blocks. -/
theorem filter_dummy (h : ∀ b ∈ B, BlockOk s b) :
    (notices B).filter s.notice.isdummy = (B.filter (dummyBlock s)).map Block.last := by
  induction B with
  | nil => rfl
  | cons b B ih =>
    obtain ⟨hb, hB⟩ := forall_mem_cons.mp h
    have hinit : b.init.filter s.notice.isdummy = [] :=
      filter_eq_nil_iff.mpr fun n hn => by simp [(hb.inner n hn).2]
    rw [notices_cons, filter_append, hinit, nil_append, filter_cons,
      filter_cons, ih hB]
    unfold dummyBlock
    split <;> rfl

/-- The dummy notices behind the first, and their times. -/
theorem Shape.ends_tail (h : Shape s B I j) :
    (B.tail.filter (dummyBlock s)).map (fun b => s.notice.time b.last) = ends s j ∧
      ∀ b ∈ B.head?, s.notice.time b.last = s.LB := by
  have he := h.ordered.ends
  rw [filter_dummy h.keyed.block, map_map] at he
  obtain ⟨b, B', rfl, -, hd⟩ := h.keyed.first
  rw [filter_cons, if_pos (show dummyBlock s b = true from hd), map_cons] at he
  obtain ⟨h1, h2⟩ := List.cons.inj he
  exact ⟨h2, fun c hc => by cases hc; exact h1⟩

/-- The dummy notice at the end of time. -/
theorem Shape.infinity (h : Shape s B I j) : ∃ b ∈ B.tail, dummyBlock s b = true ∧
    s.notice.time b.last = INFINITY := by
  have hmem : INFINITY ∈ ends s j := by simp [ends]
  rw [← h.ends_tail.1, mem_map] at hmem
  obtain ⟨b, hb, ht⟩ := hmem
  obtain ⟨hb, hd⟩ := mem_filter.mp hb
  exact ⟨b, hb, hd, ht⟩

/-! ## Finding the sublist -/

/-- `el_add` finds the first key that is later. -/
theorem Shape.findKey_eq (h : Shape s (P ++ b :: Q) I j) (hP : ∀ b ∈ P, s.notice.time b.last ≤ t)
    (hb : ∀ c ∈ b :: Q, t < s.notice.time c.last) (hlo : s.LB ≤ t) (hhi : t < INFINITY) :
    s.findKey t = some b.key := by
  obtain ⟨hk, hbl⟩ : Keyed s (P ++ b :: Q) I ∧ _ := ⟨h.keyed, h.keyed.block⟩
  -- the index: some interval ends later
  obtain ⟨x, hx, hxd, hxt⟩ := h.infinity
  have hxB : x ∈ P ++ b :: Q := mem_of_mem_tail hx
  have hxi : x.key ∈ I.map s.ind.key := by
    rw [hk.indKey]
    exact mem_map_of_mem (mem_filter.mpr ⟨hx, hxd⟩)
  obtain ⟨i₀, hi₀, hik₀⟩ := mem_map.mp hxi
  have hseek := hk.index.seek_eq (c := fun i => s.key.time (s.ind.key i) ≤ t) hk.ind_length_le
  obtain ⟨i, hi⟩ : ∃ i, I.find? (fun i => !decide (s.key.time (s.ind.key i) ≤ t)) = some i := by
    rw [← Option.isSome_iff_exists, List.find?_isSome]
    refine ⟨i₀, hi₀, ?_⟩
    rw [hik₀, (hbl x hxB).time, hxt]
    simpa using hhi
  have hilate : t < s.key.time (s.ind.key i) := by simpa using List.find?_some hi
  have hiI := mem_of_find?_eq_some hi
  -- its key is that of a block behind `P`
  have hikey : s.ind.key i ∈ I.map s.ind.key := mem_map_of_mem hiI
  rw [hk.indKey] at hikey
  obtain ⟨d, hd, hdk⟩ := mem_map.mp hikey
  have hdB : d ∈ P ++ b :: Q := mem_of_mem_tail (mem_filter.mp hd).1
  rw [← hdk, (hbl d hdB).time] at hilate
  have hdQ : d ∈ b :: Q := by
    rcases mem_append.mp hdB with hd | hd
    · exact absurd (hP d hd) (Int.not_le.mpr hilate)
    · exact hd
  obtain ⟨Q₁, Q₂, hQ⟩ := append_of_mem hdQ
  -- from there to the left
  have hkeys : keys (P ++ b :: Q) = (keys P ++ keys Q₁) ++ d.key :: keys Q₂ := by
    rw [hQ]; simp
  have hlink := hk.linked
  rw [hkeys] at hlink
  have hleft : s.key.left (s.ind.key i) = (keys P ++ keys Q₁).getLast? := by
    rw [← hdk]; exact hlink.prev_eq
  have hback := hlink.back
  have hlen : (keys P ++ keys Q₁).reverse.length ≤ s.cells := by
    have hle := hk.length_le
    rw [hkeys, length_append] at hle
    rw [length_reverse]
    omega
  have hPne : P ≠ [] := by
    rintro rfl
    have hLB := h.ends_tail.2 b rfl
    have := hb b mem_cons_self
    omega
  obtain ⟨P', p, rfl⟩ := (eq_nil_or_concat' P).resolve_left hPne
  have hseek' : seek s.key.left (fun k => t < s.key.time k) s.cells (s.key.left (s.ind.key i)) =
      some p.key := by
    rw [hleft, hback.seek_eq hlen, find?_reverse_append]
    · simp
    · intro k hk'
      obtain ⟨c, hc, rfl⟩ := mem_map.mp hk'
      rw [(hbl c (mem_append_left _ hc)).time]
      simpa using hP c hc
    · intro k hk'
      obtain ⟨c, hc, rfl⟩ := mem_map.mp hk'
      have hcQ : c ∈ b :: Q := by rw [hQ]; exact mem_append_left _ hc
      rw [(hbl c (mem_append_right _ hcQ)).time]
      simpa using hb c hcQ
  have hright : s.key.right p.key = some b.key := by
    have hl := hk.linked
    rw [show keys (P' ++ [p] ++ b :: Q) = keys P' ++ p.key :: keys (b :: Q) by simp] at hl
    rw [hl.next_eq]
    rfl
  rw [El.findKey, hseek, hi, Option.bind_some, hseek', Option.bind_some, hright]

end ordered

/-! ## What a change leaves alone -/

section congr

variable {s t : El} {N I : List ℕ} {B : List Block} {b : Block} {j : ℕ}

theorem BlockOk.congr (h : BlockOk s b) (hl : t.NLIM = s.NLIM)
    (hk : t.key.notice b.key = s.key.notice b.key ∧ t.key.time b.key = s.key.time b.key ∧
      t.key.numnote b.key = s.key.numnote b.key)
    (hn : ∀ n ∈ b.notices, t.notice.time n = s.notice.time n ∧
      t.notice.isdummy n = s.notice.isdummy n ∧ t.notice.key n = s.notice.key n) : BlockOk t b := by
  have hlast : b.last ∈ b.notices := by simp [Block.notices]
  have hinit : ∀ n ∈ b.init, n ∈ b.notices := fun n hn => by simp [Block.notices, hn]
  refine ⟨hk.1.trans h.notice, ?_, hk.2.2.trans h.numnote, hl ▸ h.limit,
    (hn _ hlast).2.2.trans h.back, fun n hi => ?_⟩
  · rw [hk.2.1, (hn _ hlast).1, h.time]
  · obtain ⟨h1, h2⟩ := h.inner n hi
    exact ⟨(hn n (hinit n hi)).2.2.trans h1, (hn n (hinit n hi)).2.1.trans h2⟩

theorem ends_congr (hp : params t = params s) : ends t j = ends s j := by
  simp only [params, Prod.mk.injEq] at hp
  simp only [ends, hp]

/-- The order depends on the times and on which notices are dummies. -/
theorem Ordered.congr (h : Ordered s N j) (hp : params t = params s)
    (hn : ∀ n ∈ N, t.notice.time n = s.notice.time n ∧ t.notice.isdummy n = s.notice.isdummy n) :
    Ordered t N j := by
  have hLB : t.LB = s.LB := by simp only [params, Prod.mk.injEq] at hp; exact hp.2.1
  refine ⟨?_, ?_, fun n hm hd => ?_⟩
  · refine h.sorted.imp_of_mem fun {x y} hx hy hxy => ?_
    unfold Before
    rw [(hn x hx).1, (hn x hx).2, (hn y hy).1, (hn y hy).2]
    exact hxy
  · rw [ends_congr hp, hLB, ← h.ends, filter_congr fun n hm => (hn n hm).2]
    exact map_congr_left fun n hm => (hn n (mem_filter.mp hm).1).1
  · rw [(hn n hm).2] at hd
    rw [(hn n hm).1, hLB]
    exact h.real n hm hd

/-- The keys are not concerned by notices elsewhere. -/
theorem Keyed.congr (h : Keyed s B I) (hp : params t = params s) (hk : t.key = s.key)
    (hi : t.ind = s.ind) (hx : t.index = s.index) (ha : s.avail ≤ t.avail)
    (hn : ∀ n ∈ notices B, t.notice.time n = s.notice.time n ∧
      t.notice.isdummy n = s.notice.isdummy n ∧ t.notice.key n = s.notice.key n) :
    Keyed t B I := by
  have hNLIM : t.NLIM = s.NLIM := by simp only [params, Prod.mk.injEq] at hp; exact hp.2.2.2
  have hd : ∀ b ∈ B, dummyBlock t b = dummyBlock s b :=
    fun b hb => (hn b.last (last_mem_notices hb)).2.1
  refine ⟨fun b hb => (h.block b hb).congr hNLIM (by rw [hk]; exact ⟨rfl, rfl, rfl⟩) fun n hm =>
    hn n (mem_flatMap.mpr ⟨b, hb, hm⟩), hk ▸ h.linked, h.nodup,
    fun k hm => Nat.lt_of_lt_of_le (h.avail k hm) ha, ?_, h.indNodup,
    fun k hm => Nat.lt_of_lt_of_le (h.indAvail k hm) ha, ?_, ?_⟩
  · rw [hi, hx]
    exact h.index
  · rw [hi, h.indKey, filter_congr fun b hb => hd b (mem_of_mem_tail hb)]
  · obtain ⟨b, B', rfl, h1, h2⟩ := h.first
    exact ⟨b, B', rfl, h1, (hd b mem_cons_self).trans h2⟩

theorem real_congr (hn : ∀ n ∈ N, t.notice.isdummy n = s.notice.isdummy n) :
    real t N = real s N := filter_congr fun n hm => by rw [hn n hm]

theorem queue_congr (ht : t.notice.time = s.notice.time) (hi : t.notice.id = s.notice.id)
    (he : t.notice.event = s.notice.event) (hd : t.notice.isdummy = s.notice.isdummy) :
    queue t B = queue s B := by
  unfold queue real event
  rw [ht, hi, he, hd]

end congr

/-! ## Adding -/

section add

open Function

variable {s t : El} {I : List ℕ} {B P Q : List Block} {b : Block} {j n : ℕ} {τ id : ℤ}

/-- A new notice is in no list. -/
theorem Rep.newNotice (h : Rep s B I j) (ev : ℕ) (τ id : ℤ) :
    Rep (s.newNotice ev τ id) B I j ∧ queue (s.newNotice ev τ id) B = queue s B := by
  have hne : ∀ n ∈ notices B, n ≠ s.avail := fun n hn => Nat.ne_of_lt (h.listed.avail n hn)
  have hsame : ∀ n ∈ notices B, (s.newNotice ev τ id).notice.time n = s.notice.time n ∧
      (s.newNotice ev τ id).notice.isdummy n = s.notice.isdummy n ∧
      (s.newNotice ev τ id).notice.key n = s.notice.key n := fun n hn =>
    ⟨update_of_ne (hne n hn) .., update_of_ne (hne n hn) ..,
      update_of_ne (hne n hn) ..⟩
  have hreal : real (s.newNotice ev τ id) (notices B) = real s (notices B) :=
    real_congr fun n hn => (hsame n hn).2.1
  refine ⟨⟨⟨h.keyed.congr rfl rfl rfl rfl (Nat.le_succ _) hsame,
    ⟨h.listed.linked, h.listed.nodup, fun n hn => Nat.lt_succ_of_lt (h.listed.avail n hn)⟩,
    h.ordered.congr rfl fun n hn => ⟨(hsame n hn).1, (hsame n hn).2.1⟩, h.pos, h.nlim⟩, ?_⟩, ?_⟩
  · rw [hreal]
    exact h.current
  · unfold queue
    rw [hreal]
    refine map_congr_left fun n hn => ?_
    have hn := (mem_filter.mp hn).1
    simp only [event, El.newNotice, update_of_ne (hne n hn)]

/-- Where a full sublist is split. -/
theorem split_at {l : List ℕ} {m : ℕ} (h1 : 1 ≤ m) (h2 : m ≤ l.length) :
    ∃ l₁ x l₂, l = l₁ ++ x :: l₂ ∧ l₂.length + 1 = m := by
  obtain ⟨x, l₂, hx⟩ : ∃ x l₂, l.drop (l.length - m) = x :: l₂ := by
    refine exists_cons_of_ne_nil fun h => ?_
    have hlen := congrArg List.length h
    rw [length_drop] at hlen
    simp only [length_nil] at hlen
    omega
  refine ⟨l.take (l.length - m), x, l₂, by rw [← hx, take_append_drop], ?_⟩
  have hlen := congrArg List.length hx
  rw [length_drop, length_cons] at hlen
  omega

/-- A full sublist is split. -/
theorem Rep.splitKey (h : Rep s (P ++ b :: Q) I j) (hP : P ≠ [])
    (hfull : s.key.numnote b.key = s.NLIM) :
    ∃ t l₁ x l₂, b.init = l₁ ++ x :: l₂ ∧ s.splitKey b.key = some (s.avail, t) ∧
      t.key.time s.avail = s.notice.time x ∧
      Rep t (P ++ ⟨s.avail, l₁, x⟩ :: ⟨b.key, l₂, b.last⟩ :: Q) I j ∧
      t.notice.time = s.notice.time ∧ t.notice.id = s.notice.id ∧
      t.notice.event = s.notice.event ∧ t.notice.isdummy = s.notice.isdummy ∧
      (∀ n, n ∉ notices (P ++ b :: Q) → t.notice.key n = s.notice.key n) ∧
      s.avail ≤ t.avail ∧ params t = params s := by
  have hk := h.keyed
  have hbl := hk.block
  have hb := hbl b (by simp)
  have hnum := hb.numnote
  have hnlim := h.nlim
  have hcount : ((s.NLIM / 2).toNat : ℤ) = s.NLIM / 2 := Int.toNat_of_nonneg (by omega)
  obtain ⟨l₁, x, l₂, hinit, hlen⟩ := split_at (l := b.init) (m := (s.NLIM / 2).toNat)
    (by omega) (by omega)
  -- the last notice of the first part
  have hN : notices (P ++ b :: Q) =
      (notices P ++ (l₁ ++ x :: l₂) ++ [b.last]) ++ notices Q := by simp [hinit]
  have hlink := h.listed.linked
  rw [hN] at hlink
  have hback := hlink.back
  rw [List.getLast?_concat, reverse_append, reverse_append] at hback
  have hsteps : steps s.notice.left (s.NLIM / 2).toNat (some (s.key.notice b.key)) = some x := by
    rw [hb.notice, hback.steps_eq, ← hlen]
    simp
  obtain ⟨right, left, hlb, hd⟩ := (by rw [← keys_cons, ← keys_append]; exact hk.linked :
    Doubly s.key.right s.key.left (keys (P ++ b :: Q)).head? (keys (P ++ b :: Q)).getLast?
      (keys P ++ b.key :: keys Q)).linkBefore (a := s.avail)
    (by rw [← keys_cons, ← keys_append]; exact hk.nodup) (by simpa [keys] using hP)
    fun hm => absurd (hk.avail s.avail (by simpa using hm)) (Nat.lt_irrefl _)
  have hsplit := El.splitKey.eq_def s b.key
  rw [hsteps, Option.bind_some] at hsplit
  dsimp only at hsplit
  rw [hlb, Option.map_some] at hsplit
  obtain ⟨t, ht, hnn, htm, hnt, hkl, hkr, hnk, hnotice, hind, hidx, hcur, hpar, hav⟩ :
      ∃ t, s.splitKey b.key = some (s.avail, t) ∧
      t.key.numnote = update (update s.key.numnote b.key (s.NLIM / 2)) s.avail
        (s.NLIM - s.NLIM / 2) ∧
      t.key.time = update s.key.time s.avail (s.notice.time x) ∧
      t.key.notice = update s.key.notice s.avail x ∧
      t.key.left = left ∧ t.key.right = right ∧
      t.notice.key = update s.notice.key x (some s.avail) ∧
      (t.notice.time = s.notice.time ∧ t.notice.id = s.notice.id ∧
        t.notice.event = s.notice.event ∧ t.notice.isdummy = s.notice.isdummy ∧
        t.notice.left = s.notice.left ∧ t.notice.right = s.notice.right) ∧
      t.ind = s.ind ∧ t.index = s.index ∧ t.current = s.current ∧ params t = params s ∧
      t.avail = s.avail + 1 :=
    ⟨_, hsplit, rfl, rfl, rfl, rfl, rfl, rfl, ⟨rfl, rfl, rfl, rfl, rfl, rfl⟩, rfl, rfl, rfl, rfl,
      rfl⟩
  obtain ⟨htime, hid, hev, hdum, hnl, hnr⟩ := hnotice
  have hNLIM : t.NLIM = s.NLIM := by simp only [params, Prod.mk.injEq] at hpar; exact hpar.2.2.2
  have hkey : ∀ c ∈ P ++ b :: Q, c.key ≠ s.avail :=
    fun c hc => Nat.ne_of_lt (hk.avail _ (key_mem_keys hc))
  have hxb : x ∈ b.notices := by simp [Block.notices, hinit]
  have hbx := hb.inner x (by simp [hinit])
  have hmem : ∀ c ∈ P ++ Q, c ∈ P ++ b :: Q := fun c hc => by
    rcases mem_append.mp hc with hc | hc <;> simp [hc]
  have hother : ∀ c ∈ P ++ Q, BlockOk t c := by
    intro c hc
    have hne := key_ne_other hk.nodup hc
    have hxc := not_mem_other h.listed.nodup hc hxb
    have hka := hkey c (hmem c hc)
    refine (hbl c (hmem c hc)).congr hNLIM ⟨?_, ?_, ?_⟩ fun n hn => ⟨by rw [htime], by rw [hdum], ?_⟩
    · rw [hnt, update_of_ne hka]
    · rw [htm, update_of_ne hka]
    · rw [hnn, update_of_ne hka, update_of_ne hne]
    · rw [hnk, update_of_ne fun he => hxc (by rw [← he]; exact hn)]
  have hnd : (b.init ++ [b.last]).Nodup := by
    have hnd := h.listed.nodup
    rw [notices_append, show notices (b :: Q) = b.notices ++ notices Q from rfl] at hnd
    exact hnd.of_append_right.of_append_left
  have hlenb := congrArg List.length hinit
  rw [length_append, length_cons] at hlenb
  have hlim := hb.limit
  rw [hinit] at hnd
  have hxl : ∀ n, n ∈ l₁ ∨ n ∈ l₂ ∨ n = b.last → n ≠ x := by
    rintro n hn rfl
    have hnd' := nodup_append.mp hnd.of_append_left
    rcases hn with hn | hn | hn
    · exact hnd'.2.2 n hn n mem_cons_self rfl
    · exact (nodup_cons.mp hnd'.2.1).1 hn
    · exact (nodup_append.mp hnd).2.2 n (by simp) b.last mem_cons_self hn
  have hinner : ∀ n ∈ b.init, n ≠ x → t.notice.key n = none ∧ t.notice.isdummy n = false := by
    intro n hn hne
    rw [hnk, update_of_ne hne, hdum]
    exact hb.inner n hn
  have hnew : BlockOk t ⟨s.avail, l₁, x⟩ := by
    refine ⟨?_, ?_, ?_, ?_, ?_, fun n hn => ?_⟩
    · rw [hnt, update_self]
    · rw [htm, htime, update_self]
    · rw [hnn, update_self]
      dsimp only
      omega
    · rw [hNLIM]
      dsimp only
      omega
    · rw [hnk, update_self]
    · exact hinner n (by rw [hinit]; exact mem_append_left _ hn) (hxl n (.inl hn))
  have hold : BlockOk t ⟨b.key, l₂, b.last⟩ := by
    have hka := hkey b (by simp)
    refine ⟨?_, ?_, ?_, ?_, ?_, fun n hn => ?_⟩
    · rw [hnt, update_of_ne hka, hb.notice]
    · rw [htm, htime, update_of_ne hka, hb.time]
    · rw [hnn, update_of_ne hka, update_self]
      dsimp only
      omega
    · rw [hNLIM]
      dsimp only
      omega
    · rw [hnk, update_of_ne (hxl _ (.inr (.inr rfl))), hb.back]
    · exact hinner n (by rw [hinit]; simp [show n ∈ l₂ from hn]) (hxl n (.inr (.inl hn)))
  have hkeys : keys (P ++ ⟨s.avail, l₁, x⟩ :: ⟨b.key, l₂, b.last⟩ :: Q) =
      keys P ++ s.avail :: b.key :: keys Q := by simp
  have hnotices : notices (P ++ ⟨s.avail, l₁, x⟩ :: ⟨b.key, l₂, b.last⟩ :: Q) =
      notices (P ++ b :: Q) := by simp [hinit]
  have hreal : real t (notices (P ++ b :: Q)) = real s (notices (P ++ b :: Q)) :=
    real_congr fun n _ => by rw [hdum]
  obtain ⟨p, P', rfl⟩ := exists_cons_of_ne_nil hP
  refine ⟨t, l₁, x, l₂, hinit, ht, by rw [htm, update_self], ⟨⟨⟨?_, ?_, ?_, ?_, ?_,
    hk.indNodup, ?_, ?_, ?_⟩, ⟨?_, ?_, ?_⟩, ?_, h.pos, hNLIM ▸ h.nlim⟩, ?_⟩, htime, hid, hev, hdum,
    fun n hn => ?_, by omega, hpar⟩
  · intro c hc
    simp only [mem_append, mem_cons] at hc
    rcases hc with hc | rfl | rfl | hc
    · exact hother c (mem_append_left _ (mem_cons.mpr hc))
    · exact hnew
    · exact hold
    · exact hother c (mem_append_right _ hc)
  · rw [hkl, hkr, hkeys]
    exact hd.self
  · rw [hkeys]
    have hnd := hk.nodup
    rw [keys_append, keys_cons] at hnd
    exact (nodup_middle).mpr (nodup_cons.mpr ⟨fun hm =>
      absurd (hk.avail s.avail (by simpa using hm)) (Nat.lt_irrefl _), hnd⟩)
  · rw [hkeys, hav]
    intro k hkm
    have hkm : k = s.avail ∨ k ∈ keys (p :: P' ++ b :: Q) := by
      simp only [mem_append, mem_cons, keys_append, keys_cons] at hkm ⊢
      tauto
    rcases hkm with rfl | hkm
    · exact Nat.lt_succ_self _
    · exact Nat.lt_succ_of_lt (hk.avail k hkm)
  · rw [hind, hidx]
    exact hk.index
  · rw [hav]
    exact fun i hi => Nat.lt_succ_of_lt (hk.indAvail i hi)
  · have hx : dummyBlock s ⟨s.avail, l₁, x⟩ = false := hbx.2
    have hdb : ∀ c, dummyBlock t c = dummyBlock s c := fun c => by rw [dummyBlock, hdum, dummyBlock]
    have hbb : dummyBlock s ⟨b.key, l₂, b.last⟩ = dummyBlock s b := rfl
    rw [hind, hk.indKey, filter_congr fun c _ => hdb c]
    simp only [cons_append, tail_cons, filter_append, filter_cons, hx, hbb,
      Bool.false_eq_true, if_false]
    split <;> simp
  · obtain ⟨c, C, hc, h1, h2⟩ := hk.first
    obtain ⟨rfl, rfl⟩ := List.cons.inj hc
    exact ⟨p, _, rfl, h1, by rw [hdum]; exact h2⟩
  · rw [hnl, hnr, hnotices]
    exact h.listed.linked
  · rw [hnotices]
    exact h.listed.nodup
  · rw [hnotices, hav]
    exact fun n hn => Nat.lt_succ_of_lt (h.listed.avail n hn)
  · rw [hnotices]
    exact h.ordered.congr hpar fun n _ => ⟨by rw [htime], by rw [hdum]⟩
  · rw [hnotices, hcur, hreal]
    exact h.current
  · rw [hnk, update_of_ne]
    rintro rfl
    exact hn (by simp [hinit])

/-- A notice is put into a sublist that has room. -/
theorem Rep.insertNotice (h : Rep s (P ++ b :: Q) I j) (hP0 : P ≠ [])
    (hP : ∀ c ∈ P, s.notice.time c.last ≤ s.notice.time n)
    (hQ : ∀ c ∈ b :: Q, s.notice.time n < s.notice.time c.last)
    (hroom : s.key.numnote b.key < s.NLIM) (hnew : n ∉ notices (P ++ b :: Q)) (hav : n < s.avail)
    (hlo : s.LB ≤ s.notice.time n) (hhi : s.notice.time n < INFINITY)
    (hdn : s.notice.isdummy n = false) (hkn : s.notice.key n = none) :
    ∃ t B', s.insertNotice n b.key = some t ∧ Rep t B' I j ∧
      queue t B' = Queue.add (event s n) (queue s (P ++ b :: Q)) ∧ params t = params s := by
  have hk := h.keyed
  have hbl := hk.block
  have hb := hbl b (by simp)
  have hsorted := h.ordered.sorted
  -- where the notice goes in the sublist, and in the list
  obtain ⟨l₁, l₂, hinit, hl₁, hl₂⟩ := sorted_split s.notice.time (s.notice.time n)
    (l := b.init) (by
      have hp := (pairwise_flatMap.mp hsorted).1 b (by simp)
      exact (pairwise_append.mp hp).1.imp fun hxy => hxy.1)
  obtain ⟨X, hXdef⟩ : ∃ X, X = notices P ++ l₁ := ⟨_, rfl⟩
  obtain ⟨Y, hYdef⟩ : ∃ Y, Y = l₂ ++ b.last :: notices Q := ⟨_, rfl⟩
  have hN : notices (P ++ b :: Q) = X ++ Y := by simp [hXdef, hYdef, hinit]
  have hX : ∀ x ∈ X, s.notice.time x ≤ s.notice.time n := by
    intro x hx
    rcases mem_append.mp (hXdef ▸ hx) with hx | hx
    · rw [notices_append] at hsorted
      exact le_of_lasts (pairwise_append.mp hsorted).1 hP x hx
    · exact hl₁ x hx
  have hY : ∀ x ∈ Y, s.notice.time n < s.notice.time x := by
    intro x hx
    have hblast := hQ b mem_cons_self
    rcases mem_append.mp (hYdef ▸ hx) with hx | hx
    · exact hl₂ x hx
    · rcases mem_cons.mp hx with rfl | hx
      · exact hblast
      · rw [notices_append, notices_cons] at hsorted
        have hp := (pairwise_append.mp (pairwise_append.mp hsorted).2.1).2.1
        exact Int.lt_of_lt_of_le hblast ((pairwise_cons.mp hp).1 x hx).1
  have hPn : notices P ≠ [] := by
    obtain ⟨c, P', rfl⟩ := exists_cons_of_ne_nil hP0
    simp
  obtain ⟨X', m, hXm⟩ := (eq_nil_or_concat' X).resolve_left (by simp [hXdef, hPn])
  have hYne : Y ≠ [] := by simp [hYdef]
  have hlink := h.listed.linked
  have hnd := h.listed.nodup
  -- the notice before it
  have hseek : seek s.notice.left (fun x => s.notice.time n < s.notice.time x) s.cells
      (some (s.key.notice b.key)) = some m := by
    have hl := hlink
    rw [show notices (P ++ b :: Q) = (X ++ (l₂ ++ [b.last])) ++ notices Q by
      simp [hXdef, hinit]] at hl
    have hback := hl.back
    rw [← append_assoc, List.getLast?_concat] at hback
    have hlen : (X ++ l₂ ++ [b.last]).reverse.length ≤ s.cells := by
      have hle := h.listed.length_le
      rw [hN, hYdef] at hle
      simp only [length_append, length_cons, length_reverse, length_nil] at hle ⊢
      omega
    rw [hb.notice, hback.seek_eq hlen, append_assoc, find?_reverse_append, hXm,
      List.getLast?_concat]
    · exact fun x hx => by simpa using hX x hx
    · intro x hx
      have hxY : x ∈ Y := by
        rw [hYdef]
        rcases mem_append.mp hx with hx | hx
        · exact mem_append_left _ hx
        · rw [mem_singleton.mp hx]
          simp
      simpa using hY x hxY
  rw [hN, hXm, append_assoc, singleton_append] at hlink hnd hnew
  obtain ⟨right, left, hla, hd⟩ := hlink.linkAfter hnd hYne hnew
  have hins := El.insertNotice.eq_def s n b.key
  unfold El.cells at hins hseek
  dsimp only at hins
  rw [hseek, Option.bind_some, hla, Option.map_some] at hins
  obtain ⟨t, ht, hnn, htm, hnt, hkl, hkr, hnk, hnotice, hind, hidx, hcur, hpar, hav'⟩ :
      ∃ t, s.insertNotice n b.key = some t ∧
      t.key.numnote = update s.key.numnote b.key (s.key.numnote b.key + 1) ∧
      t.key.time = s.key.time ∧ t.key.notice = s.key.notice ∧
      t.key.left = s.key.left ∧ t.key.right = s.key.right ∧
      t.notice.key = s.notice.key ∧
      (t.notice.time = s.notice.time ∧ t.notice.id = s.notice.id ∧
        t.notice.event = s.notice.event ∧ t.notice.isdummy = s.notice.isdummy ∧
        t.notice.left = left ∧ t.notice.right = right) ∧
      t.ind = s.ind ∧ t.index = s.index ∧
      t.current = (if s.current.all fun c => s.notice.time n < s.notice.time c then some n
        else s.current) ∧ params t = params s ∧ t.avail = s.avail := by
    split at hins
    · rename_i hall
      refine ⟨_, hins, rfl, rfl, rfl, rfl, rfl, rfl, ⟨rfl, rfl, rfl, rfl, rfl, rfl⟩, rfl, rfl, ?_,
        rfl, rfl⟩
      exact (if_pos hall).symm
    · rename_i hall
      refine ⟨_, hins, rfl, rfl, rfl, rfl, rfl, rfl, ⟨rfl, rfl, rfl, rfl, rfl, rfl⟩, rfl, rfl, ?_,
        rfl, rfl⟩
      exact (if_neg hall).symm
  obtain ⟨htime, hid, hev, hdum, hnl, hnr⟩ := hnotice
  have hNLIM : t.NLIM = s.NLIM := by simp only [params, Prod.mk.injEq] at hpar; exact hpar.2.2.2
  have hLB : t.LB = s.LB := by simp only [params, Prod.mk.injEq] at hpar; exact hpar.2.1
  have hN' : notices (P ++ ⟨b.key, l₁ ++ n :: l₂, b.last⟩ :: Q) = X ++ n :: Y := by
    simp [hXdef, hYdef]
  have hkeys : keys (P ++ ⟨b.key, l₁ ++ n :: l₂, b.last⟩ :: Q) = keys (P ++ b :: Q) := by simp
  have hdb : ∀ c, dummyBlock t c = dummyBlock s c := fun c => by rw [dummyBlock, hdum, dummyBlock]
  have hreal : ∀ L, real t L = real s L := fun L => real_congr fun n _ => by rw [hdum]
  have hevent : event t = event s := by funext c; simp only [event, htime, hid, hev]
  have hrn : ∀ L, real s (n :: L) = n :: real s L := fun L => by simp [real, hdn]
  have hrapp : ∀ L M, real s (L ++ M) = real s L ++ real s M := fun L M => filter_append ..
  refine ⟨t, P ++ ⟨b.key, l₁ ++ n :: l₂, b.last⟩ :: Q, ht, ⟨⟨⟨fun c hc => ?_, ?_, ?_, ?_, ?_,
    hk.indNodup, ?_, ?_, ?_⟩, ⟨?_, ?_, ?_⟩, ⟨?_, ?_, ?_⟩, h.pos, hNLIM ▸ h.nlim⟩, ?_⟩, ?_, hpar⟩
  · have hcase : c ∈ P ++ Q ∨ c = ⟨b.key, l₁ ++ n :: l₂, b.last⟩ := by
      simp only [mem_append, mem_cons] at hc ⊢
      tauto
    rcases hcase with hc | rfl
    · have hmem : c ∈ P ++ b :: Q := by
        rcases mem_append.mp hc with hc | hc <;> simp [hc]
      refine (hbl c hmem).congr hNLIM ⟨by rw [hnt], by rw [htm], ?_⟩ fun x _ =>
        ⟨by rw [htime], by rw [hdum], by rw [hnk]⟩
      rw [hnn, update_of_ne (key_ne_other hk.nodup hc)]
    · have hnum := hb.numnote
      have hlen := congrArg List.length hinit
      rw [length_append] at hlen
      refine ⟨by rw [hnt]; exact hb.notice, by rw [htm, htime]; exact hb.time, ?_, ?_,
        by rw [hnk]; exact hb.back, fun x hx => ?_⟩
      · rw [hnn, update_self]
        simp only [length_append, length_cons]
        omega
      · rw [hNLIM]
        simp only [length_append, length_cons]
        omega
      · rw [hnk, hdum]
        rcases mem_append.mp hx with hx | hx
        · exact hb.inner x (by rw [hinit]; exact mem_append_left _ hx)
        · rcases mem_cons.mp hx with rfl | hx
          · exact ⟨hkn, hdn⟩
          · exact hb.inner x (by rw [hinit]; exact mem_append_right _ hx)
  · rw [hkl, hkr, hkeys]
    exact hk.linked
  · rw [hkeys]
    exact hk.nodup
  · rw [hkeys, hav']
    exact hk.avail
  · rw [hind, hidx]
    exact hk.index
  · rw [hav']
    exact hk.indAvail
  · obtain ⟨p, P', rfl⟩ := exists_cons_of_ne_nil hP0
    have hbb : dummyBlock s ⟨b.key, l₁ ++ n :: l₂, b.last⟩ = dummyBlock s b := rfl
    rw [hind, hk.indKey, filter_congr fun c _ => hdb c]
    simp only [cons_append, tail_cons, filter_append, filter_cons, hbb]
    split <;> simp
  · obtain ⟨p, P', rfl⟩ := exists_cons_of_ne_nil hP0
    obtain ⟨c, C, hc, h1, h2⟩ := hk.first
    obtain ⟨rfl, rfl⟩ := List.cons.inj hc
    exact ⟨p, _, rfl, h1, by rw [hdum]; exact h2⟩
  · rw [hnl, hnr, hN', hXm, append_assoc, singleton_append]
    exact hd.self
  · rw [hN', hXm, append_assoc, singleton_append, ← singleton_append,
      ← append_assoc]
    rw [← singleton_append, ← append_assoc] at hnd hnew
    exact nodup_middle.mpr (nodup_cons.mpr ⟨hnew, hnd⟩)
  · rw [hN', hav']
    intro x hx
    rcases mem_append.mp hx with hx | hx
    · exact h.listed.avail x (by rw [hN]; exact mem_append_left _ hx)
    · rcases mem_cons.mp hx with rfl | hx
      · exact hav
      · exact h.listed.avail x (by rw [hN]; exact mem_append_right _ hx)
  · -- it is behind what is not later, and before the rest
    have hs := hsorted
    rw [hN] at hs
    obtain ⟨hsX, hsY, hsXY⟩ := pairwise_append.mp hs
    rw [hN']
    have hb' : ∀ {x y}, Before s x y → Before t x y := fun {x y} hxy => by
      unfold Before
      rw [htime, hdum]
      exact hxy
    refine (pairwise_append.mpr ⟨hsX, pairwise_cons.mpr ⟨fun y hy => ?_, hsY⟩,
      fun x hx y hy => ?_⟩).imp hb'
    · exact ⟨Int.le_of_lt (hY y hy), fun _ _ => hY y hy⟩
    · rcases mem_cons.mp hy with rfl | hy
      · exact ⟨hX x hx, fun hc => by rw [hdn] at hc; exact nomatch hc⟩
      · exact hsXY x hx y hy
  · have hends := h.ordered.ends
    rw [hN, filter_append] at hends
    rw [hN', htime, hdum, hLB, ends_congr hpar, filter_append, filter_cons, hdn]
    exact hends
  · rw [hN', hLB, htime, hdum]
    intro x hx hxd
    rcases mem_append.mp hx with hx | hx
    · exact h.ordered.real x (by rw [hN]; exact mem_append_left _ hx) hxd
    · rcases mem_cons.mp hx with rfl | hx
      · exact ⟨hlo, hhi⟩
      · exact h.ordered.real x (by rw [hN]; exact mem_append_right _ hx) hxd
  · have hc := h.current
    rw [hN, hrapp] at hc
    rw [hN', hreal, hrapp, hrn, hcur, hc]
    cases hrX : real s X with
    | nil =>
      rw [nil_append, nil_append, if_pos]
      · rfl
      · cases hrY : real s Y with
        | nil => rfl
        | cons y ys =>
          have hy : y ∈ Y := (mem_filter.mp (hrY ▸ mem_cons_self : y ∈ real s Y)).1
          simpa using hY y hy
    | cons x xs =>
      have hx : x ∈ X := (mem_filter.mp (hrX ▸ mem_cons_self : x ∈ real s X)).1
      have hxn := hX x hx
      rw [cons_append, List.head?_cons, cons_append, List.head?_cons, if_neg]
      simpa using hxn
  · have hsplit := takeWhile_append_eq (c := fun x : Event => decide (x.time ≤ s.notice.time n))
      ((real s X).map (event s)) ((real s Y).map (event s))
      (fun x hx => by
        obtain ⟨c, hc, rfl⟩ := mem_map.mp hx
        exact decide_eq_true (hX c (mem_filter.mp hc).1))
      (fun x hx => by
        obtain ⟨c, hc, rfl⟩ := mem_map.mp hx
        exact decide_eq_false (Int.not_le.mpr (hY c (mem_filter.mp hc).1)))
    unfold queue Queue.add
    rw [hN', hN, hreal, hevent, hrapp, hrapp, hrn, map_append, map_append]
    rw [show (event s n).time = s.notice.time n from rfl, hsplit.1, hsplit.2]
    rfl

/-- **`el_add` puts the event behind all that are not later.** -/
theorem Rep.el_add (h : Rep s B I j) (ev : ℕ) (hlo : s.LB ≤ τ) (hhi : τ < INFINITY) :
    ∃ t B', s.el_add ev τ id = some t ∧ Rep t B' I j ∧
      queue t B' = Queue.add ⟨τ, id, ev⟩ (queue s B) ∧ params t = params s := by
  obtain ⟨hw, hqueue⟩ := h.newNotice ev τ id
  obtain ⟨w, hwdef⟩ : ∃ w, w = s.newNotice ev τ id := ⟨_, rfl⟩
  have hwn : w.notice.time s.avail = τ ∧ w.notice.isdummy s.avail = false ∧
      w.notice.key s.avail = none ∧ event w s.avail = ⟨τ, id, ev⟩ ∧ params w = params s ∧
      w.avail = s.avail + 1 := by
    subst hwdef
    simp [El.newNotice, event, params]
  obtain ⟨hwt, hwd, hwk, hwe, hwp, hwa⟩ := hwn
  have hwLB : w.LB = s.LB := by simp only [params, Prod.mk.injEq] at hwp; exact hwp.2.1
  rw [← hwdef] at hw hqueue
  obtain ⟨P, Q, hsplit, hP, hQ⟩ := hw.split τ
  subst hsplit
  obtain ⟨x, hx, -, hxt⟩ := hw.infinity
  have hxQ : x ∈ Q := by
    rcases mem_append.mp (mem_of_mem_tail hx) with h | h
    · have := hP x h
      omega
    · exact h
  obtain ⟨b, Q, rfl⟩ := exists_cons_of_ne_nil (ne_nil_of_mem hxQ)
  have hP0 : P ≠ [] := by
    rintro rfl
    have hLB := hw.ends_tail.2 b rfl
    have := hQ b mem_cons_self
    omega
  have hfind := hw.findKey_eq hP hQ (by omega) hhi
  have hfresh : s.avail ∉ notices (P ++ b :: Q) :=
    fun hm => absurd (h.listed.avail _ hm) (Nat.lt_irrefl _)
  have hidx : s.index ≠ none := by
    have hi := h.keyed.index.head?
    intro hn
    rw [hn] at hi
    have hI : I = [] := by
      cases I with
      | nil => rfl
      | cons i I => cases hi
    obtain ⟨y, hy, hyd, -⟩ := h.infinity
    have hk := h.keyed.indKey
    rw [hI] at hk
    have hmem : y.key ∈ ((P ++ b :: Q).tail.filter (dummyBlock s)).map Block.key :=
      mem_map_of_mem (mem_filter.mpr ⟨hy, hyd⟩)
    rw [← hk] at hmem
    exact absurd hmem not_mem_nil
  have hadd : s.el_add ev τ id = (if w.key.numnote b.key = w.NLIM then
      (w.splitKey b.key).bind fun r =>
        r.2.insertNotice s.avail (if τ < r.2.key.time r.1 then r.1 else b.key)
      else w.insertNotice s.avail b.key) := by
    rw [El.el_add, if_neg (by rw [not_or]; exact ⟨hidx, by omega⟩)]
    dsimp only
    rw [← hwdef, hfind, Option.bind_some]
  have hb := hw.keyed.block b (by simp)
  have hnum := hb.numnote
  have hlim := hb.limit
  rw [hadd]
  by_cases hfull : w.key.numnote b.key = w.NLIM
  · obtain ⟨t, l₁, x, l₂, hinit, hsp, htx, hrep, htime, hid, hev, hdum, hkey, hav, hpar⟩ :=
      hw.splitKey hP0 hfull
    have hnot : notices (P ++ ⟨w.avail, l₁, x⟩ :: ⟨b.key, l₂, b.last⟩ :: Q) =
        notices (P ++ b :: Q) := by simp [hinit]
    have hqt : queue t (P ++ ⟨w.avail, l₁, x⟩ :: ⟨b.key, l₂, b.last⟩ :: Q) = queue s (P ++ b :: Q) := by
      rw [← hqueue, queue_congr htime hid hev hdum]
      unfold queue
      rw [hnot]
    have hte : event t s.avail = ⟨τ, id, ev⟩ := by
      rw [← hwe]
      unfold event
      rw [htime, hid, hev]
    have htk : t.notice.key s.avail = none := (hkey _ hfresh).trans hwk
    have htLB : t.LB = s.LB := by simp only [params, Prod.mk.injEq] at hpar; omega
    have hlen := congrArg List.length hinit
    rw [length_append, length_cons] at hlen
    have htN : t.NLIM = w.NLIM := by simp only [params, Prod.mk.injEq] at hpar; exact hpar.2.2.2
    rw [if_pos hfull, hsp, Option.bind_some]
    dsimp only
    rw [htx]
    split
    · -- into the first part
      rename_i hlt
      obtain ⟨u, B', hu, hru, hqu, hpu⟩ := hrep.insertNotice (n := s.avail) hP0
        (fun c hc => by rw [htime, hwt]; exact hP c hc)
        (fun c hc => by
          rw [htime, hwt]
          rcases mem_cons.mp hc with rfl | hc
          · exact hlt
          · rcases mem_cons.mp hc with rfl | hc
            · exact hQ b mem_cons_self
            · exact hQ c (mem_cons_of_mem _ hc))
        (by
          have hn := (hrep.keyed.block ⟨w.avail, l₁, x⟩ (by simp)).numnote
          dsimp only at hn ⊢
          omega)
        (by rw [hnot]; exact hfresh) (by omega) (by rw [htime, hwt]; omega)
        (by rw [htime, hwt]; exact hhi) (by rw [hdum]; exact hwd) htk
      exact ⟨u, B', hu, hru, by rw [hqu, hte, hqt], hpu.trans (hpar.trans hwp)⟩
    · rename_i hle
      have hsp' : P ++ ⟨w.avail, l₁, x⟩ :: ⟨b.key, l₂, b.last⟩ :: Q =
          (P ++ [⟨w.avail, l₁, x⟩]) ++ ⟨b.key, l₂, b.last⟩ :: Q := by simp
      rw [hsp'] at hrep hnot hqt
      obtain ⟨u, B', hu, hru, hqu, hpu⟩ := hrep.insertNotice (n := s.avail) (by simp)
        (fun c hc => by
          rw [htime, hwt]
          rcases mem_append.mp hc with hc | hc
          · exact hP c hc
          · rw [mem_singleton.mp hc]
            exact Int.not_lt.mp hle)
        (fun c hc => by
          rw [htime, hwt]
          rcases mem_cons.mp hc with rfl | hc
          · exact hQ b mem_cons_self
          · exact hQ c (mem_cons_of_mem _ hc))
        (by
          have hn := (hrep.keyed.block ⟨b.key, l₂, b.last⟩ (by simp)).numnote
          dsimp only at hn ⊢
          omega)
        (by rw [hnot]; exact hfresh) (by omega) (by rw [htime, hwt]; omega)
        (by rw [htime, hwt]; exact hhi) (by rw [hdum]; exact hwd) htk
      exact ⟨u, B', hu, hru, by rw [hqu, hte, hqt], hpu.trans (hpar.trans hwp)⟩
  · obtain ⟨u, B', hu, hru, hqu, hpu⟩ := hw.insertNotice (n := s.avail) hP0
      (fun c hc => by rw [hwt]; exact hP c hc) (fun c hc => by rw [hwt]; exact hQ c hc) (by omega)
      hfresh (by omega) (by rw [hwt]; omega) (by rw [hwt]; exact hhi) hwd hwk
    exact ⟨u, B', by rw [if_neg hfull]; exact hu, hru, by rw [hqu, hwe, hqueue], hpu.trans hwp⟩

end add

end Cmd.Elm
