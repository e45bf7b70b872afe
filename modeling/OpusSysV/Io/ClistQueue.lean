import OpusSysV.Io.Clist
import OpusSysV.Lib.Linked
import Mathlib.Data.List.Nodup

/-!
# Character lists are queues

Each routine of `io/clist.c` does to the queue of characters of a list what its name says, and
moves blocks between the free list, the lists and the callers.

* `Core` — the blocks of the free list, of each list and of the callers, and the queue that each
  list stands for.  Four moves of a block, and a change of its contents, keep it.
* `getc_spec`, `putc_spec`, `getcb_spec`, `putcb_spec` — what each routine does to the queues.
* `clists_are_queues` — the result for every order of calls.
-/

namespace Io

open Lib Function List Option

/-- Where a block is. -/
inductive Spot (κ : Type*)
  | free
  | on (p : κ)
  | caller
  deriving DecidableEq, Repr

theorem CBlock.length_chars (x : CBlock) : x.chars.length = x.c_last - x.c_first := by
  simp [CBlock.chars]

/-- A character is added to a block. -/
theorem CBlock.chars_add {x : CBlock} (hx : x.c_first ≤ x.c_last) (c : UInt8) :
    { x with
      c_data := update x.c_data x.c_last c, c_last := x.c_last + 1 : CBlock }.chars =
      x.chars ++ [c] := by
  unfold CBlock.chars row
  dsimp only
  rw [Nat.sub_add_comm hx, range_succ, map_append]
  refine congrArg₂ _ (map_congr_left fun i hi => ?_) ?_
  · rw [mem_range] at hi
    rw [update_of_ne (by omega)]
  · rw [map_singleton, Nat.add_sub_cancel' hx, update_self]

namespace Clists

variable {κ : Type*} {n : ℕ} {spot : ℕ → Spot κ} {free held held' : List ℕ}
variable {chain : κ → List ℕ} {q : κ → List UInt8} {s : Clists κ} {p : κ} {b k m : ℕ} {x : CBlock}

/-- The block that a block names. -/
def next (s : Clists κ) (b : ℕ) : Option ℕ := (s.blk b).c_next

/-- The characters of a chain of blocks. -/
def chars (s : Clists κ) (l : List ℕ) : List UInt8 := l.flatMap fun b => (s.blk b).chars

@[simp] theorem chars_nil : s.chars [] = [] := rfl

@[simp] theorem chars_cons {l : List ℕ} : s.chars (b :: l) = (s.blk b).chars ++ s.chars l := rfl

@[simp] theorem chars_append {l l' : List ℕ} : s.chars (l ++ l') = s.chars l ++ s.chars l' :=
  flatMap_append

theorem chars_congr {t : Clists κ} {l : List ℕ} (h : ∀ b ∈ l, (t.blk b).chars = (s.blk b).chars) :
    t.chars l = s.chars l := by
  induction l with
  | nil => rfl
  | cons b l ih =>
    rw [chars_cons, chars_cons, h b mem_cons_self,
      ih fun c hc => h c (mem_cons_of_mem _ hc)]

/-- The blocks of the free list, of each list and of the callers, where each block is, and the
characters of each list. -/
structure Core (n : ℕ) (spot : ℕ → Spot κ) (free : List ℕ) (chain : κ → List ℕ) (held : List ℕ)
    (q : κ → List UInt8) (s : Clists κ) : Prop where
  free_linked : Linked s.next s.cfreelist.c_next free
  free_nodup : free.Nodup
  free_mem : ∀ b, b ∈ free ↔ b < n ∧ spot b = .free
  chain_linked : ∀ p, Linked s.next (s.list p).c_cf (chain p)
  chain_last : ∀ p, (s.list p).c_cl = (chain p).getLast?
  chain_nodup : ∀ p, (chain p).Nodup
  chain_mem : ∀ p b, b ∈ chain p ↔ b < n ∧ spot b = .on p
  held_nodup : held.Nodup
  held_mem : ∀ b, b ∈ held ↔ b < n ∧ spot b = .caller
  full : ∀ p, ∀ b ∈ chain p, (s.blk b).c_first < (s.blk b).c_last ∧ (s.blk b).c_last ≤ CLSIZE
  size : s.cfreelist.c_size = CLSIZE
  queue : ∀ p, s.chars (chain p) = q p
  count : ∀ p, (s.list p).c_cc = (q p).length

namespace Core

theorem perm (h : Core n spot free chain held q s) (hp : held.Perm held') :
    Core n spot free chain held' q s :=
  { h with
    held_nodup := hp.nodup_iff.mp h.held_nodup
    held_mem := fun b => by rw [← h.held_mem, hp.mem_iff] }

/-- Blocks in different places differ. -/
theorem ne_of_free (h : Core n spot free chain held q s) (hb : b ∈ held) {c : ℕ}
    (hc : c ∈ free) : c ≠ b := by
  rintro rfl
  have h1 := ((h.free_mem c).mp hc).2
  rw [((h.held_mem c).mp hb).2] at h1
  cases h1

theorem ne_of_chain (h : Core n spot free chain held q s) (hb : b ∈ held) {c : ℕ}
    (hc : c ∈ chain p) : c ≠ b := by
  rintro rfl
  have h1 := ((h.chain_mem p c).mp hc).2
  rw [((h.held_mem c).mp hb).2] at h1
  cases h1

/-- The contents of a block that a caller has are its own. -/
theorem setBlk (h : Core n spot free chain held q s) (hb : b ∈ held) (x : CBlock) :
    Core n spot free chain held q (s.setBlk b x) := by
  have hblk : ∀ c, c ≠ b → (s.setBlk b x).blk c = s.blk c := fun c hc =>
    update_of_ne hc _ _
  have hnext : ∀ c, c ≠ b → (s.setBlk b x).next c = s.next c := fun c hc => by
    show ((s.setBlk b x).blk c).c_next = (s.blk c).c_next
    rw [hblk c hc]
  refine { h with
    free_linked := h.free_linked.congr fun c hc => hnext c (h.ne_of_free hb hc)
    chain_linked := fun p => (h.chain_linked p).congr fun c hc => hnext c (h.ne_of_chain hb hc)
    full := ?_
    queue := ?_ }
  · intro p c hc
    rw [hblk c (h.ne_of_chain hb hc)]
    exact h.full p c hc
  · intro p
    rw [← h.queue p]
    exact chars_congr fun c hc => by rw [hblk c (h.ne_of_chain hb hc)]

/-! ## Moves of a block -/

/-- Blocks that do not go to a place and were not there. -/
theorem mem_update {l : List ℕ} {P P' : Spot κ} (h : ∀ c, c ∈ l ↔ c < n ∧ spot c = P)
    (hb : spot b ≠ P) (hP : P' ≠ P) (c : ℕ) :
    c ∈ l ↔ c < n ∧ update spot b P' c = P := by
  rw [h]
  by_cases hc : c = b
  · subst hc
    simp [hb, hP]
  · rw [update_of_ne hc]

/-- The place that a block goes to. -/
theorem mem_update_to {l l' : List ℕ} {P : Spot κ} (h : ∀ c, c ∈ l ↔ c < n ∧ spot c = P)
    (hb : b < n) (hl : ∀ c, c ∈ l' ↔ c = b ∨ c ∈ l) (c : ℕ) :
    c ∈ l' ↔ c < n ∧ update spot b P c = P := by
  rw [hl, h]
  by_cases hc : c = b
  · subst hc
    simp [hb]
  · rw [update_of_ne hc]
    simp [hc]

/-- The place that a block leaves. -/
theorem mem_update_from {l l' : List ℕ} {P P' : Spot κ} (h : ∀ c, c ∈ l ↔ c < n ∧ spot c = P)
    (hP : P' ≠ P) (hl : ∀ c, c ∈ l' ↔ c ≠ b ∧ c ∈ l) (c : ℕ) :
    c ∈ l' ↔ c < n ∧ update spot b P' c = P := by
  rw [hl, h]
  by_cases hc : c = b
  · subst hc
    simp [hP]
  · rw [update_of_ne hc]
    simp [hc]

/-- The first block of the free list is taken. -/
theorem popFree (h : Core n spot (b :: free) chain held q s) :
    Core n (update spot b .caller) free chain (b :: held) q
      { s with cfreelist := { s.cfreelist with c_next := s.next b } } := by
  obtain ⟨hlt, hspot⟩ := (h.free_mem b).mp mem_cons_self
  have hnd := nodup_cons.mp h.free_nodup
  have hb : b ∉ held := by
    rw [h.held_mem, hspot]
    simp
  refine { h with
    free_linked := h.free_linked.2
    free_nodup := hnd.2
    free_mem := mem_update_from h.free_mem (by simp) ?_
    chain_mem := fun p => mem_update (h.chain_mem p) (by simp [hspot]) (by simp)
    held_nodup := nodup_cons.mpr ⟨hb, h.held_nodup⟩
    held_mem := mem_update_to h.held_mem hlt fun c => mem_cons }
  intro c
  rw [mem_cons]
  constructor
  · intro hc
    exact ⟨fun he => hnd.1 (he ▸ hc), Or.inr hc⟩
  · rintro ⟨hne, he | hc⟩
    · exact absurd he hne
    · exact hc

theorem wakeFree (h : Core n spot free chain held q s) :
    Core n spot free chain held q s.wakeFree := by
  unfold Clists.wakeFree
  split
  · exact { h with }
  · exact h

/-- A block is put in front of the free list. -/
theorem pushFree (h : Core n spot free chain (b :: held) q s) :
    Core n (update spot b .free) (b :: free) chain held q (s.putcf b) := by
  obtain ⟨hlt, hspot⟩ := (h.held_mem b).mp mem_cons_self
  have hnd := nodup_cons.mp h.held_nodup
  have hb : b ∉ free := by
    rw [h.free_mem, hspot]
    simp
  have h1 := h.setBlk mem_cons_self { s.blk b with c_next := s.cfreelist.c_next }
  have h2 : Core n (update spot b .free) (b :: free) chain held q
      { s.setBlk b { s.blk b with c_next := s.cfreelist.c_next } with
        cfreelist := { s.cfreelist with c_next := some b } } := by
    refine { h1 with
      free_linked := ⟨rfl, ?_⟩
      free_nodup := nodup_cons.mpr ⟨hb, h.free_nodup⟩
      free_mem := mem_update_to h.free_mem hlt fun c => mem_cons
      chain_mem := fun p => mem_update (h.chain_mem p) (by simp [hspot]) (by simp)
      held_nodup := hnd.2
      held_mem := mem_update_from h.held_mem (by simp) ?_ }
    · have hn : (s.setBlk b { s.blk b with c_next := s.cfreelist.c_next }).next b =
          s.cfreelist.c_next := by
        show (update s.blk b _ b).c_next = _
        rw [update_self]
      show Linked _ ((s.setBlk b { s.blk b with c_next := s.cfreelist.c_next }).next b) free
      rw [hn]
      exact h1.free_linked
    · intro c
      rw [mem_cons]
      constructor
      · intro hc
        exact ⟨fun he => hnd.1 (he ▸ hc), Or.inr hc⟩
      · rintro ⟨hne, he | hc⟩
        · exact absurd he hne
        · exact hc
  exact h2.wakeFree

/-- A block that a caller has is not the last one of a list. -/
theorem cl_ne (h : Core n spot free chain (b :: held) q s) (p : κ) :
    (s.list p).c_cl ≠ some b := by
  rw [h.chain_last]
  intro he
  exact h.ne_of_chain mem_cons_self (mem_of_getLast? he) rfl

/-- A list with no blocks has no characters, and only such a list. -/
theorem chain_eq_nil (h : Core n spot free chain held q s) : chain p = [] ↔ q p = [] := by
  rw [← h.queue p]
  cases hl : chain p with
  | nil => simp
  | cons b l =>
    have hf := h.full p b (hl ▸ mem_cons_self)
    have hlen := (s.blk b).length_chars
    simp only [reduceCtorEq, chars_cons, append_eq_nil_iff, false_iff]
    rintro ⟨hn, -⟩
    rw [hn, length_nil] at hlen
    omega

/-- `getcf` takes a block from the free list. -/
theorem getcf_spec (h : Core n spot free chain held q s) :
    ∃ spot' free', Core n spot' free' chain (s.getcf.1.toList ++ held) q s.getcf.2 := by
  have hfree := h.free_linked.head?
  unfold getcf
  rw [hfree]
  cases free with
  | nil =>
    refine ⟨spot, [], ?_⟩
    dsimp only [List.head?_nil]
    split
    · exact { h with }
    · exact { h with }
  | cons b F => exact ⟨_, F, h.popFree.setBlk mem_cons_self _⟩

end Core

/-- The loop of `cinit` puts blocks `k`, `k + 1`, … in front of the free list. -/
theorem cinitLoop_spec {l : List ℕ} (hl : Linked s.next s.cfreelist.c_next l)
    (hk : ∀ b ∈ l, b < k) : ∃ blk next, cinitLoop s k m = { s with
        blk := blk
        cfreelist := { s.cfreelist with c_next := next }
        cfreecnt := s.cfreecnt + m } ∧
      Linked (fun b => (blk b).c_next) next ((List.range' k m).reverse ++ l) := by
  induction m generalizing s k l with
  | zero => exact ⟨s.blk, s.cfreelist.c_next, by simp [cinitLoop], hl⟩
  | succ m ih =>
    unfold cinitLoop
    dsimp only
    have hpush : Linked
        (fun b => (update s.blk k { s.blk k with c_next := s.cfreelist.c_next } b).c_next)
        (some k) (k :: l) := by
      refine hl.push (fun b hb => ?_) ?_
      · have hne : b ≠ k := Nat.ne_of_lt (hk b hb)
        rw [update_of_ne hne]
        rfl
      · rw [update_self]
    obtain ⟨blk, next, he, hlk⟩ := ih
      (s := { s.setBlk k { s.blk k with c_next := s.cfreelist.c_next } with
        cfreelist := { s.cfreelist with c_next := some k }, cfreecnt := s.cfreecnt + 1 })
      hpush (k := k + 1) fun b hb => by
        rcases mem_cons.mp hb with rfl | hb
        · exact Nat.lt_succ_self b
        · exact Nat.lt_succ_of_lt (hk b hb)
    refine ⟨blk, next, ?_, ?_⟩
    · refine he.trans ?_
      have hcnt : s.cfreecnt + ((m + 1 : ℕ) : ℤ) = s.cfreecnt + 1 + m := by omega
      rw [hcnt]
      rfl
    · rw [List.range'_succ, reverse_cons, append_assoc]
      exact hlk

/-- After `cinit` every block is free. -/
theorem cinit_core (n : ℕ) :
    Core n (fun _ => Spot.free) (List.range' 0 n).reverse (fun _ : κ => []) [] (fun _ => [])
      (cinit n) := by
  obtain ⟨blk, next, he, hl⟩ := cinitLoop_spec (s := boot) (κ := κ) (k := 0) (m := n) (l := []) rfl
    (by simp)
  unfold cinit
  rw [he]
  rw [append_nil] at hl
  exact
    { free_linked := hl
      free_nodup := nodup_reverse.mpr nodup_range'
      free_mem := by simp
      chain_linked := fun p => rfl
      chain_last := fun p => rfl
      chain_nodup := fun p => nodup_nil
      chain_mem := by simp
      held_nodup := nodup_nil
      held_mem := by simp
      full := by simp
      size := rfl
      queue := fun p => rfl
      count := fun p => rfl }

variable [DecidableEq κ]

namespace Core

/-- The first block of a list is taken. -/
theorem popChain {l : List ℕ} {c : ℤ} {cs : List UInt8} (h : Core n spot free chain held q s)
    (hl : chain p = b :: l) (hq : q p = (s.blk b).chars ++ cs) (hc : c = cs.length) :
    Core n (update spot b .caller) free (update chain p l) (b :: held)
      (update q p cs)
      (s.setList p ⟨c, s.next b, if s.next b = none then none else (s.list p).c_cl⟩) := by
  obtain ⟨hlt, hspot⟩ := (h.chain_mem p b).mp (hl ▸ mem_cons_self)
  have hnd := h.chain_nodup p
  have hlk := h.chain_linked p
  have hlast := h.chain_last p
  have hqueue := h.queue p
  rw [hl] at hnd hlk hlast hqueue
  have hnd' := nodup_cons.mp hnd
  have hb : b ∉ held := by
    rw [h.held_mem, hspot]
    simp
  refine { h with
    free_mem := mem_update h.free_mem (by simp [hspot]) (by simp)
    chain_linked := ?_
    chain_last := ?_
    chain_nodup := ?_
    chain_mem := ?_
    held_nodup := nodup_cons.mpr ⟨hb, h.held_nodup⟩
    held_mem := mem_update_to h.held_mem hlt fun c => mem_cons
    full := ?_
    queue := ?_
    count := ?_ }
  all_goals
    intro p'
    by_cases hp : p' = p
    case neg =>
      simp only [Clists.setList, update_of_ne hp]
      first
        | exact h.chain_linked p'
        | exact h.chain_last p'
        | exact h.chain_nodup p'
        | exact mem_update (h.chain_mem p') (by simp [hspot, Ne.symm hp]) (by simp)
        | exact h.full p'
        | exact h.queue p'
        | exact h.count p'
    subst hp
    simp only [Clists.setList, update_self]
  · exact hlk.2
  · cases l with
    | nil =>
      rw [show s.next b = none from hlk.2]
      rfl
    | cons a l =>
      rw [show s.next b = some a from hlk.2.1, hlast]
      rfl
  · exact hnd'.2
  · refine mem_update_from (h.chain_mem p') (by simp) fun c => ?_
    rw [hl, mem_cons]
    constructor
    · intro hc
      exact ⟨fun he => hnd'.1 (he ▸ hc), Or.inr hc⟩
    · rintro ⟨hne, he | hc⟩
      · exact absurd he hne
      · exact hc
  · intro a ha
    exact h.full p' a (hl ▸ mem_cons_of_mem _ ha)
  · rw [hq, chars_cons] at hqueue
    exact append_cancel_left hqueue
  · exact hc

end Core

/-- A block is linked behind the last one of a list. -/
def link (s : Clists κ) (p : κ) (b : ℕ) (c : ℤ) : Clists κ :=
  let t := match (s.list p).c_cl with
    | none => s
    | some obp => s.setBlk obp { s.blk obp with c_next := some b }
  t.setList p ⟨c, if (s.list p).c_cl = none then some b else (s.list p).c_cf, some b⟩

theorem putcb_eq (hb : (s.list p).c_cl ≠ some b) :
    s.putcb b p = (s.setBlk b { s.blk b with c_next := none }).link p b
      ((s.list p).c_cc + (((s.blk b).c_last : ℤ) - (s.blk b).c_first)) := by
  unfold putcb link
  have hlist : (s.setBlk b { s.blk b with c_next := none }).list p = s.list p := rfl
  dsimp only
  rw [hlist]
  cases hcl : (s.list p).c_cl with
  | none => rfl
  | some obp =>
    have hne : b ≠ obp := fun he => hb (by rw [hcl, he])
    have hblk : (s.setBlk obp { s.blk obp with c_next := some b }).blk b = s.blk b :=
      update_of_ne hne _ _
    have hobp : (s.setBlk b { s.blk b with c_next := none }).blk obp = s.blk obp :=
      update_of_ne hne.symm _ _
    dsimp only
    rw [hblk, hobp]
    simp only [setBlk]
    rw [update_comm hne]

/-- A block that `putc` takes from the free list is linked with the character in it. -/
theorem addc_grow {c : UInt8} (hb : (s.list p).c_cl ≠ some b) :
    (s.grow p b).addc c p b =
      ({ s with cfreelist := { s.cfreelist with c_next := s.next b } }.setBlk b
        ⟨none, 0, 1, update (s.blk b).c_data 0 c⟩).link p b ((s.list p).c_cc + 1) := by
  cases hcl : (s.list p).c_cl with
  | none => simp [grow, addc, link, setBlk, setList, hcl, Clists.next]
  | some obp =>
    have hne : b ≠ obp := fun he => hb (by rw [hcl, he])
    simp [grow, addc, link, setBlk, setList, hcl, Clists.next, update_of_ne hne.symm,
      update_comm hne]

theorem link_next (hb : (s.list p).c_cl = some b) {c : ℕ} {k : ℤ} :
    (s.link p c k).next b = some c := by
  unfold link Clists.next
  rw [hb]
  show (update s.blk b _ b).c_next = some c
  rw [update_self]

theorem link_next_of_ne {a : ℕ} (ha : (s.list p).c_cl ≠ some a) {c : ℕ} {k : ℤ} :
    (s.link p c k).next a = s.next a := by
  unfold link Clists.next
  cases hl : (s.list p).c_cl with
  | none => rfl
  | some obp =>
    rw [hl] at ha
    show (update s.blk obp _ a).c_next = _
    have hne : a ≠ obp := fun he => ha (by rw [he])
    rw [update_of_ne hne]

/-- Linking changes nothing else of a block. -/
theorem link_blk (a b : ℕ) (k : ℤ) : ∃ o, (s.link p b k).blk a = { s.blk a with c_next := o } := by
  unfold link
  cases (s.list p).c_cl with
  | none => exact ⟨_, rfl⟩
  | some obp =>
    by_cases ha : a = obp
    · subst ha
      exact ⟨some b, update_self ..⟩
    · exact ⟨(s.blk a).c_next, update_of_ne ha ..⟩

theorem link_list (b : ℕ) (k : ℤ) : (s.link p b k).list = update s.list p
    ⟨k, if (s.list p).c_cl = none then some b else (s.list p).c_cf, some b⟩ := by
  unfold link
  cases (s.list p).c_cl <;> rfl

theorem link_cfreelist (b : ℕ) (k : ℤ) : (s.link p b k).cfreelist = s.cfreelist := by
  unfold link
  cases (s.list p).c_cl <;> rfl

theorem chars_link (l : List ℕ) (b : ℕ) (k : ℤ) : (s.link p b k).chars l = s.chars l := by
  refine chars_congr fun a _ => ?_
  obtain ⟨o, ho⟩ := link_blk (s := s) (p := p) a b k
  rw [ho]
  rfl

namespace Core

/-- A block is put behind the last one of a list. -/
theorem snocChain {c : ℤ} (h : Core n spot free chain (b :: held) q s)
    (hnext : (s.blk b).c_next = none)
    (hb : (s.blk b).c_first < (s.blk b).c_last ∧ (s.blk b).c_last ≤ CLSIZE)
    (hc : c = (q p ++ (s.blk b).chars).length) :
    Core n (update spot b (.on p)) free (update chain p (chain p ++ [b])) held
      (update q p (q p ++ (s.blk b).chars)) (s.link p b c) := by
  obtain ⟨hlt, hspot⟩ := (h.held_mem b).mp mem_cons_self
  have hnd := nodup_cons.mp h.held_nodup
  have hne : ∀ p', ∀ a ∈ chain p', a ≠ b := fun p' a ha => h.ne_of_chain mem_cons_self ha
  have hbn : b ∉ chain p := fun hb => hne p b hb rfl
  -- only the last block of the list is made to name another one
  have hkeep : ∀ a, spot a ≠ .on p → (s.link p b c).next a = s.next a := by
    intro a ha
    refine link_next_of_ne fun he => ha ?_
    rw [h.chain_last] at he
    exact ((h.chain_mem p a).mp (mem_of_getLast? he)).2
  have hbnone : (s.link p b c).next b = none := by
    rw [hkeep b (by simp [hspot])]
    exact hnext
  refine
    { free_linked := ?_
      free_nodup := h.free_nodup
      free_mem := mem_update h.free_mem (by simp [hspot]) (by simp)
      chain_linked := ?_
      chain_last := ?_
      chain_nodup := ?_
      chain_mem := ?_
      held_nodup := hnd.2
      held_mem := mem_update_from h.held_mem (by simp) ?_
      full := ?_
      size := by rw [link_cfreelist]; exact h.size
      queue := ?_
      count := ?_ }
  · rw [link_cfreelist]
    refine h.free_linked.congr fun a ha => hkeep a ?_
    rw [((h.free_mem a).mp ha).2]
    simp
  · intro p'
    rw [link_list]
    by_cases hp : p' = p
    · subst hp
      rw [update_self, update_self]
      have hlk := h.chain_linked p'
      rw [← append_nil (chain p')] at hlk
      refine hlk.insert ?_ ?_ hbnone ?_ ?_
      · rw [append_nil]
        exact h.chain_nodup p'
      · rw [h.chain_last, h.chain_linked p' |>.head?]
        cases chain p' with
        | nil => rfl
        | cons a l => simp [List.getLast?_cons]
      · intro z hz
        rw [← h.chain_last] at hz
        exact link_next hz
      · intro a _ ha
        rw [← h.chain_last] at ha
        exact link_next_of_ne ha
    · rw [update_of_ne hp, update_of_ne hp]
      refine (h.chain_linked p').congr fun a ha => hkeep a ?_
      rw [((h.chain_mem p' a).mp ha).2]
      simpa using hp
  · intro p'
    rw [link_list]
    by_cases hp : p' = p
    · subst hp
      simp
    · rw [update_of_ne hp, update_of_ne hp]
      exact h.chain_last p'
  · intro p'
    rw [update_apply]
    split_ifs with hp
    · subst hp
      exact (h.chain_nodup p').append (nodup_singleton b) (by simpa using hbn)
    · exact h.chain_nodup p'
  · intro p'
    rw [update_apply]
    split_ifs with hp
    · subst hp
      exact mem_update_to (h.chain_mem p') hlt fun a => by simp [or_comm]
    · exact mem_update (h.chain_mem p') (by simp [hspot]) (by simpa using Ne.symm hp)
  · intro a
    rw [mem_cons]
    constructor
    · intro ha
      exact ⟨fun he => hnd.1 (he ▸ ha), Or.inr ha⟩
    · rintro ⟨hne, he | ha⟩
      · exact absurd he hne
      · exact ha
  · intro p' a ha
    obtain ⟨o, ho⟩ := link_blk (s := s) (p := p) a b c
    rw [ho]
    rw [update_apply] at ha
    split_ifs at ha with hp
    · subst hp
      rw [mem_append, mem_singleton] at ha
      rcases ha with ha | rfl
      · exact h.full p' a ha
      · exact hb
    · exact h.full p' a ha
  · intro p'
    rw [chars_link]
    by_cases hp : p' = p
    · subst hp
      rw [update_self, update_self, chars_append, h.queue, chars_cons, chars_nil,
        append_nil]
    · rw [update_of_ne hp, update_of_ne hp]
      exact h.queue p'
  · intro p'
    rw [link_list]
    by_cases hp : p' = p
    · subst hp
      rw [update_self, update_self]
      exact hc
    · rw [update_of_ne hp, update_of_ne hp]
      exact h.count p'

section

variable (h : Core n spot free chain held q s)

include h

/-- The contents of a block of a list are changed. -/
theorem edit {c : ℤ} {cs : List UInt8} (hb : b ∈ chain p)
    (hnext : x.c_next = (s.blk b).c_next) (hx : x.c_first < x.c_last ∧ x.c_last ≤ CLSIZE)
    (hq : (s.setBlk b x).chars (chain p) = cs) (hc : c = cs.length) :
    Core n spot free chain held (update q p cs)
      ((s.setBlk b x).setList p { s.list p with c_cc := c }) := by
  have hon := ((h.chain_mem p b).mp hb).2
  have hblk : ∀ a, a ≠ b → (s.setBlk b x).blk a = s.blk a := fun a ha =>
    update_of_ne ha _ _
  have hself : (s.setBlk b x).blk b = x := update_self ..
  have hnx : ∀ a, (s.setBlk b x).next a = s.next a := by
    intro a
    show ((s.setBlk b x).blk a).c_next = _
    by_cases ha : a = b
    · rw [ha, hself, hnext]
      rfl
    · rw [hblk a ha]
      rfl
  have hlist : ∀ p',
      (s.list p').c_cf = (update s.list p { s.list p with c_cc := c } p').c_cf ∧
        (s.list p').c_cl = (update s.list p { s.list p with c_cc := c } p').c_cl := by
    intro p'
    rw [update_apply]
    split_ifs with hp
    · rw [hp]
      exact ⟨rfl, rfl⟩
    · exact ⟨rfl, rfl⟩
  refine { h with
    free_linked := h.free_linked.congr fun a _ => hnx a
    chain_linked := ?_
    chain_last := ?_
    full := ?_
    queue := ?_
    count := ?_ }
  · intro p'
    have hl := (h.chain_linked p').congr fun a _ => hnx a
    rw [(hlist p').1] at hl
    exact hl
  · intro p'
    rw [← h.chain_last p', (hlist p').2]
    rfl
  · intro p' a ha
    show ((s.setBlk b x).blk a).c_first < ((s.setBlk b x).blk a).c_last ∧
      ((s.setBlk b x).blk a).c_last ≤ CLSIZE
    by_cases hab : a = b
    · rw [hab, hself]
      exact hx
    · rw [hblk a hab]
      exact h.full p' a ha
  · intro p'
    show (s.setBlk b x).chars (chain p') = _
    by_cases hp : p' = p
    · rw [hp, hq, update_self]
    · rw [update_of_ne hp, ← h.queue p']
      refine chars_congr fun a ha => ?_
      have hab : a ≠ b := by
        rintro rfl
        have h1 := ((h.chain_mem p' a).mp ha).2
        rw [hon] at h1
        exact hp (Spot.on.inj h1).symm
      rw [hblk a hab]
  · intro p'
    by_cases hp : p' = p
    · subst hp
      simp only [setList, update_self]
      exact hc
    · simp only [setList, update_of_ne hp]
      exact h.count p'

/-! ## The routines -/

/-- `getc` takes the first character of a list, and returns -1 only if there is none. -/
theorem getc_spec (p : κ) :
    (q p = [] ∧ s.getc p = some (-1, s)) ∨
      ∃ c cs t spot' free' chain', q p = c :: cs ∧ s.getc p = some ((c.toNat : ℤ), t) ∧
        Core n spot' free' chain' held (update q p cs) t := by
  have hcount := h.count p
  by_cases hcc : 0 < (s.list p).c_cc
  case neg =>
    refine Or.inl ⟨eq_nil_of_length_eq_zero (by omega), ?_⟩
    unfold getc
    dsimp only
    rw [if_neg hcc]
  refine Or.inr ?_
  have hne : chain p ≠ [] := by
    rw [Ne, h.chain_eq_nil]
    intro he
    rw [hcount, he] at hcc
    simp at hcc
  obtain ⟨b, l, hl⟩ := exists_cons_of_ne_nil hne
  have hcf := (h.chain_linked p).head?
  rw [hl, List.head?_cons] at hcf
  have hf := h.full p b (hl ▸ mem_cons_self)
  have hq := h.queue p
  rw [hl, chars_cons] at hq
  obtain ⟨x, hx⟩ : ∃ x, x = s.blk b := ⟨_, rfl⟩
  rw [← hx] at hf hq
  -- the first character of the block, and the others
  have hchars : x.chars =
      x.c_data x.c_first :: { x with c_first := x.c_first + 1 : CBlock }.chars := by
    unfold CBlock.chars
    have hsub : x.c_last - x.c_first = x.c_last - (x.c_first + 1) + 1 := by omega
    rw [hsub]
    simp only [row]
    rw [range_succ_eq_map, map_cons, List.map_map]
    refine congrArg₂ _ rfl (map_congr_left fun i _ => ?_)
    show x.c_data (x.c_first + (i + 1)) = x.c_data (x.c_first + 1 + i)
    rw [Nat.add_right_comm, Nat.add_assoc]
  rw [hchars, cons_append] at hq
  have hlen : ((s.list p).c_cc - 1 : ℤ) =
      ({ x with c_first := x.c_first + 1 : CBlock }.chars ++ s.chars l).length := by
    rw [hcount, ← hq, length_cons]
    omega
  by_cases hlast : x.c_first + 1 = x.c_last
  · have hrest : { x with c_first := x.c_first + 1 : CBlock }.chars = [] := by
      unfold CBlock.chars
      rw [← hlast, Nat.sub_self]
      rfl
    rw [hrest, nil_append] at hq hlen
    have hq' : q p = (s.blk b).chars ++ s.chars l := by
      rw [← hx, hchars, hrest, ← hq]
      rfl
    have h1 := (h.popChain hl hq' hlen).setBlk mem_cons_self
      { x with c_first := x.c_first + 1 }
    refine ⟨_, _, _, _, _, _, hq.symm, ?_, h1.pushFree⟩
    unfold getc
    dsimp only
    rw [if_pos hcc, hcf]
    dsimp only
    rw [← hx, if_pos hlast]
    have hn : s.next b = x.c_next := by rw [hx]; rfl
    rw [hn]
    rfl
  · refine ⟨_, _, _, _, _, _, hq.symm, ?_,
      h.edit (b := b) (x := { x with c_first := x.c_first + 1 }) (hl ▸ mem_cons_self)
        (by rw [hx]) ⟨by show x.c_first + 1 < x.c_last; omega, hf.2⟩ ?_ hlen⟩
    · unfold getc
      dsimp only
      rw [if_pos hcc, hcf]
      dsimp only
      rw [← hx, if_neg hlast]
    · have hnd := h.chain_nodup p
      rw [hl] at hnd ⊢
      rw [chars_cons]
      refine congrArg₂ _ ?_ (chars_congr fun a ha => ?_)
      · show (update s.blk b _ b).chars = _
        rw [update_self]
      · have hab : a ≠ b := fun he => (nodup_cons.mp hnd).1 (he ▸ ha)
        show (update s.blk b _ a).chars = _
        rw [update_of_ne hab]

/-- `getcb` takes the characters of the first block of a list, with the block. -/
theorem getcb_spec (p : κ) :
    ∃ spot' chain' cs, q p = (s.getcb p).1.elim [] (fun b => (s.blk b).chars) ++ cs ∧
      Core n spot' free chain' ((s.getcb p).1.toList ++ held) (update q p cs)
        (s.getcb p).2 := by
  have hcf := (h.chain_linked p).head?
  have hq := h.queue p
  have hcount := h.count p
  unfold getcb
  dsimp only
  rw [hcf]
  cases hl : chain p with
  | nil =>
    rw [hl] at hq
    refine ⟨spot, chain, [], hq.symm, ?_⟩
    rw [show ([] : List UInt8) = q p from hq, update_eq_self]
    exact h
  | cons b l =>
    rw [hl, chars_cons] at hq
    have hf := h.full p b (hl ▸ mem_cons_self)
    refine ⟨_, _, s.chars l, hq.symm, h.popChain hl hq.symm ?_⟩
    rw [hcount, ← hq, length_append, CBlock.length_chars]
    omega

omit h in
/-- `putcb` puts a block, with its characters, behind the others of a list. -/
theorem putcb_spec (h : Core n spot free chain (b :: held) q s) (p : κ)
    (hb : (s.blk b).c_first < (s.blk b).c_last ∧ (s.blk b).c_last ≤ CLSIZE) :
    ∃ spot' chain', Core n spot' free chain' held (update q p (q p ++ (s.blk b).chars))
      (s.putcb b p) := by
  have h1 := h.setBlk mem_cons_self { s.blk b with c_next := none }
  have hself : (s.setBlk b { s.blk b with c_next := none }).blk b =
      { s.blk b with c_next := none } := update_self _ _ _
  have h2 := h1.snocChain (p := p)
    (c := (s.list p).c_cc + (((s.blk b).c_last : ℤ) - (s.blk b).c_first)) (by rw [hself])
    (by rw [hself]; exact hb) ?_
  · rw [hself] at h2
    rw [putcb_eq (h.cl_ne p)]
    exact ⟨_, _, h2⟩
  · rw [hself, length_append, ← h.queue p, h.queue p, h.count p]
    have hlen : ({ s.blk b with c_next := none : CBlock }).chars.length =
        (s.blk b).c_last - (s.blk b).c_first := CBlock.length_chars _
    rw [hlen]
    omega

/-- `putc` puts the character behind the others of a list, unless there is no room and there are
no free blocks. -/
theorem putc_spec (c : ℤ) (p : κ) :
    ((s.putc c p).1 = -1 ∧ free = [] ∧ Core n spot free chain held q (s.putc c p).2) ∨
      (s.putc c p).1 = 0 ∧ ∃ spot' free' chain', Core n spot' free' chain' held
        (update q p (q p ++ [UInt8.ofInt c])) (s.putc c p).2 := by
  unfold putc
  cases hroom : s.room p with
  | some b =>
    refine Or.inr ⟨rfl, spot, free, chain, ?_⟩
    obtain ⟨hcl, hsz⟩ : (s.list p).c_cl = some b ∧ (s.blk b).c_last ≠ CLSIZE := by
      unfold room at hroom
      cases hcl : (s.list p).c_cl with
      | none => simp [hcl] at hroom
      | some bp =>
        rw [hcl] at hroom
        dsimp only at hroom
        by_cases hsz : (s.blk bp).c_last = s.cfreelist.c_size
        · simp [hsz] at hroom
        · rw [if_neg hsz] at hroom
          cases hroom
          rw [h.size] at hsz
          exact ⟨rfl, hsz⟩
    rw [h.chain_last] at hcl
    obtain ⟨l, hl⟩ := List.getLast?_eq_some_iff.mp hcl
    have hb : b ∈ chain p := mem_of_getLast? hcl
    have hf := h.full p b hb
    refine h.edit hb rfl ⟨by show (s.blk b).c_first < (s.blk b).c_last + 1; omega,
      by show (s.blk b).c_last + 1 ≤ CLSIZE; omega⟩ ?_ ?_
    · rw [← h.queue p, hl, chars_append, chars_append, append_assoc]
      have hnd := h.chain_nodup p
      rw [hl] at hnd
      refine congrArg₂ _ (chars_congr fun a ha => ?_) ?_
      · have hab : a ≠ b := fun he =>
          (disjoint_of_nodup_append hnd) ha (he ▸ mem_singleton_self b)
        show (update s.blk b _ a).chars = _
        rw [update_of_ne hab]
      · rw [chars_cons, chars_nil, append_nil, chars_cons, chars_nil, append_nil]
        show (update s.blk b _ b).chars = _
        rw [update_self]
        exact CBlock.chars_add (by omega) _
    · show (s.list p).c_cc + 1 = _
      rw [h.count p, length_append]
      rfl
  | none =>
    have hfree := h.free_linked.head?
    dsimp only
    rw [hfree]
    cases free with
    | nil =>
      refine Or.inl ?_
      dsimp only [List.head?_nil]
      split
      · exact ⟨rfl, rfl, { h with }⟩
      · exact ⟨rfl, rfl, { h with }⟩
    | cons b F =>
      refine Or.inr ⟨rfl, ?_⟩
      have h1 := h.popFree.setBlk mem_cons_self
        ⟨none, 0, 1, update (s.blk b).c_data 0 (UInt8.ofInt c)⟩
      have hself : ({ s with cfreelist := { s.cfreelist with c_next := s.next b } }.setBlk b
          ⟨none, 0, 1, update (s.blk b).c_data 0 (UInt8.ofInt c)⟩).blk b =
          ⟨none, 0, 1, update (s.blk b).c_data 0 (UInt8.ofInt c)⟩ :=
        update_self _ _ _
      have hchars : CBlock.chars
          ⟨none, 0, 1, update (s.blk b).c_data 0 (UInt8.ofInt c)⟩ = [UInt8.ofInt c] := rfl
      have h2 := h1.snocChain (p := p) (c := (s.list p).c_cc + 1) (by rw [hself])
        (by rw [hself]; exact ⟨Nat.zero_lt_one, by show 1 ≤ CLSIZE; decide⟩) ?_
      · rw [hself, hchars] at h2
        dsimp only [List.head?_cons]
        have hcl : (s.list p).c_cl ≠ some b := h.popFree.cl_ne p
        rw [addc_grow hcl]
        exact ⟨_, _, _, h2⟩
      · rw [hself, hchars, h.count p, length_append]
        rfl

end

end Core

end Clists

namespace Tty

variable {κ : Type*} [DecidableEq κ] {n : ℕ} {s t : Tty κ} {e : ClistEvent κ}
variable {es : List (ClistEvent κ)}

/-- Each block is in one place, and what has been put on a list is what has been taken from it and
then what is on it. -/
def Queues (n : ℕ) (s : Tty κ) : Prop :=
  ∃ spot free chain q, Clists.Core n spot free chain s.held q s.lists ∧
    ∀ p, s.sent p = s.got p ++ q p

theorem ofInt_toNat (c : UInt8) : UInt8.ofInt c.toNat = c := by
  rw [← UInt8.toNat_inj]
  have hlt := c.toNat_lt
  simp only [UInt8.ofInt, Int.reducePow, UInt8.toNat_ofNat', Nat.reducePow]
  omega

/-- Characters are put behind those of a list. -/
theorem sent_update {sent got q : κ → List UInt8} (h : ∀ p, sent p = got p ++ q p) (p : κ)
    (cs : List UInt8) (p' : κ) :
    update sent p (sent p ++ cs) p' = got p' ++ update q p (q p ++ cs) p' := by
  by_cases hp : p' = p
  · subst hp
    rw [update_self, update_self, h, append_assoc]
  · rw [update_of_ne hp, update_of_ne hp, h]

/-- Characters in front of the others of a list are taken. -/
theorem got_update {sent got q : κ → List UInt8} (h : ∀ p, sent p = got p ++ q p) {p : κ}
    {cs cs' : List UInt8} (hq : q p = cs ++ cs') (p' : κ) :
    sent p' = update got p (got p ++ cs) p' ++ update q p cs' p' := by
  by_cases hp : p' = p
  · subst hp
    rw [update_self, update_self, h, hq, append_assoc]
  · rw [update_of_ne hp, update_of_ne hp, h]

theorem step_queues (h : Queues n s) (ht : s.step e = some t) : Queues n t := by
  obtain ⟨spot, free, chain, q, h, hq⟩ := h
  cases e with
  | getc p =>
    obtain ⟨r, hr, rfl⟩ := map_eq_some_iff.mp ht
    rcases h.getc_spec p with ⟨-, hs⟩ | ⟨c, cs, u, spot', free', chain', hc, hs, hu⟩
    · rw [hs] at hr
      cases hr
      exact ⟨spot, free, chain, q, h, hq⟩
    · rw [hs] at hr
      cases hr
      have hne : (c.toNat : ℤ) ≠ -1 := by omega
      rw [if_neg hne]
      have hq' : q p = [UInt8.ofInt c.toNat] ++ cs := by
        rw [hc, ofInt_toNat]
        rfl
      exact ⟨spot', free', chain', _, hu, got_update hq hq'⟩
  | putc c p =>
    cases ht
    rcases h.putc_spec c p with ⟨hr, -, hu⟩ | ⟨hr, spot', free', chain', hu⟩
    · rw [if_pos hr]
      exact ⟨spot, free, chain, q, hu, hq⟩
    · rw [if_neg (by rw [hr]; decide)]
      exact ⟨spot', free', chain', _, hu, sent_update hq p _⟩
  | getcf =>
    cases ht
    obtain ⟨spot', free', hu⟩ := h.getcf_spec
    exact ⟨spot', free', chain, q, hu, hq⟩
  | putcf bp =>
    unfold step at ht
    obtain ⟨hb, hu⟩ := ite_none_right_eq_some.mp ht
    cases hu
    exact ⟨_, _, chain, q, (h.perm (perm_cons_erase hb)).pushFree, hq⟩
  | getcb p =>
    cases ht
    obtain ⟨spot', chain', cs, hc, hu⟩ := h.getcb_spec p
    exact ⟨spot', free, chain', _, hu, got_update hq hc⟩
  | putcb bp p =>
    unfold step at ht
    obtain ⟨⟨hb, hfull⟩, hs⟩ := ite_none_right_eq_some.mp ht
    cases hs
    obtain ⟨spot', chain', hu⟩ := (h.perm (perm_cons_erase hb)).putcb_spec p hfull
    exact ⟨spot', free, chain', _, hu, sent_update hq p _⟩
  | fill bp first last data =>
    unfold step at ht
    obtain ⟨hb, hu⟩ := ite_none_right_eq_some.mp ht
    cases hu
    exact ⟨spot, free, chain, q, h.setBlk hb _, hq⟩
  | await =>
    cases ht
    exact ⟨spot, free, chain, q, { h with }, hq⟩

/-- **Character lists are queues.**  After any calls, in any order, on any lists, by callers that
give back only blocks they have taken: each of the `n` blocks is once in exactly one of the free
list, a list and the hands of its caller; what has been put on a list is what has been taken from
it and then the characters on it, whose number is `c_cc`; `getc` returns the first of these, and
-1 only when there are none. -/
theorem clists_are_queues (hrun : exec step (init n) es = some s) :
    ∃ (spot : ℕ → Spot κ) (free : List ℕ) (chain : κ → List ℕ) (q : κ → List UInt8),
      Clists.Core n spot free chain s.held q s.lists ∧
      ∀ p, s.sent p = s.got p ++ q p ∧ (s.lists.list p).c_cc = (q p).length ∧
        ∃ r u, s.lists.getc p = some (r, u) ∧
          r = (q p).head?.elim (-1 : ℤ) (fun c => (c.toNat : ℤ)) ∧ (r = -1 ↔ q p = []) := by
  have hinit : Queues n (init n : Tty κ) :=
    ⟨_, _, _, _, Clists.cinit_core n, fun p => rfl⟩
  obtain ⟨spot, free, chain, q, h, hq⟩ :=
    exec_invariant' (fun _ _ _ hs ht => step_queues hs ht) hinit hrun
  refine ⟨spot, free, chain, q, h, fun p => ⟨hq p, h.count p, ?_⟩⟩
  rcases h.getc_spec p with ⟨hn, hs⟩ | ⟨c, cs, u, spot', free', chain', hc, hs, -⟩
  · exact ⟨-1, s.lists, hs, by rw [hn]; rfl, by simp [hn]⟩
  · refine ⟨c.toNat, u, hs, by rw [hc]; rfl, ?_⟩
    rw [hc]
    constructor
    · intro he
      omega
    · intro he
      cases he

/-- A character put, a block taken from the free list, filled and put, two characters taken. -/
theorem clists_are_queues_run : ∃ s : Tty Bool,
    exec step (init 3) [.putc 97 true, .getcf, .fill 1 0 2 (fun i => if i = 0 then 98 else 99),
      .putcb 1 true, .getc true, .getc true] = some s ∧
    ∃ (spot : ℕ → Spot Bool) (free : List ℕ) (chain : Bool → List ℕ) (q : Bool → List UInt8),
      Clists.Core 3 spot free chain s.held q s.lists ∧
      ∀ p, s.sent p = s.got p ++ q p ∧ (s.lists.list p).c_cc = (q p).length ∧
        ∃ r u, s.lists.getc p = some (r, u) ∧
          r = (q p).head?.elim (-1 : ℤ) (fun c => (c.toNat : ℤ)) ∧ (r = -1 ↔ q p = []) := by
  have hrun : exec step (init 3 : Tty Bool) [.putc 97 true, .getcf,
      .fill 1 0 2 (fun i => if i = 0 then 98 else 99), .putcb 1 true, .getc true, .getc true] =
      some _ := rfl
  exact ⟨_, hrun, clists_are_queues hrun⟩

end Tty

end Io
