import OpusSysV.Io.StreamBuf

/-!
# Reference counts of data blocks

* `Exact`: the counts and the free lists say how the blocks are used.
* `users_take`, `users_drop` — the message blocks that use a data block, when one of them
  is taken from the free list and when one goes back there.
* `Exact.allocb`, `Exact.dupb`, `Exact.freeb`, and the loops over a message.
* `ref_exact` — the counts are exact in every history in which no data block gets a 256th
  reference; `dupb` does not prevent that (`dupb_wraps`).
-/

namespace Io

open Lib Function List Option

namespace Pool

variable {M D : Type} [DecidableEq M] [DecidableEq D] [Fintype M]
variable {s t : Pool M D} {b nb : M} {d : D} {c : Fin 12}

/-- The live message blocks that use a data block. -/
def users (s : Pool M D) (d : D) : Finset M :=
  Finset.univ.filter fun b => b ∉ s.mbfreelist ∧ s.datap b = some d

theorem mem_users : b ∈ s.users d ↔ b ∉ s.mbfreelist ∧ s.datap b = some d := by
  unfold users
  rw [Finset.mem_filter]
  exact ⟨fun h => h.2, fun h => ⟨Finset.mem_univ b, h⟩⟩

/-! ## One message block more or less -/

/-- A message block is taken from the free list and points to `d`. -/
structure Takes (nb : M) (d : D) (s t : Pool M D) : Prop where
  free : s.mbfreelist = nb :: t.mbfreelist
  datap : t.datap = update s.datap nb (some d)

/-- A message block goes back to the free list. -/
structure Drops (b : M) (s t : Pool M D) : Prop where
  free : t.mbfreelist = b :: s.mbfreelist
  datap : t.datap = update s.datap b none

theorem users_take (hs : s.mbfreelist.Nodup) (h : Takes nb d s t) (d' : D) :
    t.users d' = if d' = d then insert nb (s.users d') else s.users d' := by
  rw [h.free] at hs
  have hnb := (nodup_cons.mp hs).1
  ext b
  have hold : b ≠ nb → (b ∈ t.users d' ↔ b ∈ s.users d') := by
    intro hb
    rw [mem_users, mem_users, h.datap, update_of_ne hb, h.free, mem_cons]
    tauto
  by_cases hb : b = nb
  · rw [mem_users, h.datap, hb, update_self]
    split_ifs with hd
    · rw [hd]
      exact ⟨fun _ => Finset.mem_insert_self _ _, fun _ => ⟨hnb, rfl⟩⟩
    · rw [mem_users, h.free]
      exact ⟨fun hc => absurd (Option.some.inj hc.2).symm hd,
        fun hc => absurd mem_cons_self hc.1⟩
  · rw [hold hb]
    split_ifs
    · rw [Finset.mem_insert]
      exact ⟨Or.inr, fun hm => hm.resolve_left hb⟩
    · rfl

theorem not_mem_users_of_take (h : Takes nb d s t) (d' : D) : nb ∉ s.users d' := by
  intro hm
  apply (mem_users.mp hm).1
  rw [h.free]
  exact mem_cons_self

/-- The number of users after a block was taken. -/
theorem card_users_take (hs : s.mbfreelist.Nodup) (h : Takes nb d s t) (d' : D) :
    (t.users d').card = (s.users d').card + if d' = d then 1 else 0 := by
  rw [users_take hs h]
  split_ifs
  · exact Finset.card_insert_of_notMem (not_mem_users_of_take h d')
  · rfl

theorem users_drop (h : Drops b s t) (d' : D) : t.users d' = (s.users d').erase b := by
  ext x
  rw [Finset.mem_erase, mem_users, mem_users, h.free, h.datap, mem_cons]
  by_cases hx : x = b
  · exact ⟨fun hc => absurd (Or.inl hx) hc.1, fun hc => absurd hx hc.1⟩
  · rw [update_of_ne hx]
    tauto

/-- The number of users after a block went back. -/
theorem card_users_drop (h : Drops b s t) (hb : b ∉ s.mbfreelist) (hd : s.datap b = some d)
    (d' : D) : (s.users d').card = (t.users d').card + if d' = d then 1 else 0 := by
  rw [users_drop h]
  split_ifs with hdd
  · rw [Finset.card_erase_add_one]
    exact mem_users.mpr ⟨hb, hdd ▸ hd⟩
  · rw [Finset.erase_eq_of_notMem]
    · rfl
    · intro hm
      rw [mem_users, hd] at hm
      exact hdd (Option.some.inj hm.2).symm

/-! ## Exact counts -/

variable [Fintype D]

/-- The data blocks of a class that are in use. -/
def inUse (s : Pool M D) (c : Fin 12) : Finset D :=
  Finset.univ.filter fun d => s.dbClass d = c ∧ (s.users d).card ≠ 0

/-- The counts and the free lists say how the blocks are used. -/
structure Exact (s : Pool M D) : Prop where
  mb_nodup : s.mbfreelist.Nodup
  db_nodup : ∀ c, (s.dbfreelist c).Nodup
  /-- A live message block has a data block. -/
  datap : ∀ b ∉ s.mbfreelist, (s.datap b).isSome
  /-- `db_ref` is the number of live message blocks that point to the data block. -/
  ref : ∀ d, (s.dbRef d).toNat = (s.users d).card
  /-- The free list of a class has the blocks of the class that nobody points to. -/
  free : ∀ c d, d ∈ s.dbfreelist c ↔ s.dbClass d = c ∧ (s.users d).card = 0
  /-- `dba_cnt` is the number of blocks of the class in use. -/
  cnt : ∀ c, s.dbaCnt c = (s.inUse c).card

theorem mem_inUse : d ∈ s.inUse c ↔ s.dbClass d = c ∧ (s.users d).card ≠ 0 := by
  unfold inUse
  rw [Finset.mem_filter]
  exact ⟨fun h => h.2, fun h => ⟨Finset.mem_univ d, h⟩⟩

theorem inUse_congr (hcls : t.dbClass = s.dbClass)
    (h : ∀ d, (t.users d).card = 0 ↔ (s.users d).card = 0) (c : Fin 12) : t.inUse c = s.inUse c := by
  ext d
  rw [mem_inUse, mem_inUse, hcls, ne_eq, ne_eq, h d]

/-- A data block comes into use. -/
theorem card_inUse_grow (hcls : t.dbClass = s.dbClass) (h0 : (s.users d).card = 0)
    (h : ∀ d', (t.users d').card ≠ 0 ↔ d' = d ∨ (s.users d').card ≠ 0) (c : Fin 12) :
    (t.inUse c).card = (s.inUse c).card + if c = s.dbClass d then 1 else 0 := by
  by_cases hc : c = s.dbClass d
  · have hins : t.inUse c = insert d (s.inUse c) := by
      ext d'
      rw [Finset.mem_insert, mem_inUse, mem_inUse, hcls, h d']
      constructor
      · rintro ⟨h1, h2 | h2⟩
        · exact Or.inl h2
        · exact Or.inr ⟨h1, h2⟩
      · rintro (h1 | ⟨h1, h2⟩)
        · exact ⟨by rw [h1, hc], Or.inl h1⟩
        · exact ⟨h1, Or.inr h2⟩
    rw [if_pos hc, hins, Finset.card_insert_of_notMem]
    exact fun hm => (mem_inUse.mp hm).2 h0
  · have heq : t.inUse c = s.inUse c := by
      ext d'
      rw [mem_inUse, mem_inUse, hcls, h d']
      constructor
      · rintro ⟨h1, h2 | h2⟩
        · exact absurd (by rw [← h1, h2]) hc
        · exact ⟨h1, h2⟩
      · rintro ⟨h1, h2⟩
        exact ⟨h1, Or.inr h2⟩
    rw [if_neg hc, heq, Nat.add_zero]

/-- The fields that `Exact` is about are the same. -/
structure Same (s t : Pool M D) : Prop where
  mbfreelist : t.mbfreelist = s.mbfreelist
  dbfreelist : t.dbfreelist = s.dbfreelist
  datap : t.datap = s.datap
  dbRef : t.dbRef = s.dbRef
  dbClass : t.dbClass = s.dbClass
  dbaCnt : t.dbaCnt = s.dbaCnt

omit [Fintype D] in
theorem Same.users (h : Same s t) (d : D) : t.users d = s.users d := by
  unfold Pool.users
  rw [h.mbfreelist, h.datap]

theorem Exact.same (h : s.Exact) (hst : Same s t) : t.Exact := by
  refine ⟨?_, fun c => ?_, fun b hb => ?_, fun d => ?_, fun c d => ?_, fun c => ?_⟩
  · rw [hst.mbfreelist]
    exact h.mb_nodup
  · rw [hst.dbfreelist]
    exact h.db_nodup c
  · rw [hst.datap]
    exact h.datap b (hst.mbfreelist ▸ hb)
  · rw [hst.dbRef, hst.users]
    exact h.ref d
  · rw [hst.dbfreelist, hst.dbClass, hst.users]
    exact h.free c d
  · rw [hst.dbaCnt, inUse_congr hst.dbClass fun d => by rw [hst.users]]
    exact h.cnt c

/-- A block that was just taken has data. -/
theorem Exact.datap_take (h : s.Exact) (ht : Takes nb d s t) : ∀ b ∉ t.mbfreelist, (t.datap b).isSome := by
  intro b hb
  rw [ht.datap]
  by_cases hbn : b = nb
  · rw [hbn, update_self]
    rfl
  · rw [update_of_ne hbn]
    apply h.datap
    rw [ht.free, mem_cons]
    exact not_or.mpr ⟨hbn, hb⟩

/-- `allocb` from `gotdp` on, with the first block of a free list. -/
theorem Exact.gotdp (h : s.Exact) (hd : (s.dbfreelist c).head? = some d)
    (hg : s.gotdp c d = some (nb, t)) : t.Exact ∧ Takes nb d s t := by
  obtain ⟨rest, hlist⟩ := List.head?_eq_some_iff.mp hd
  obtain ⟨hcls, hzero⟩ := (h.free c d).mp (by rw [hlist]; exact mem_cons_self)
  unfold Pool.gotdp at hg
  split at hg
  · cases hg
  · rename_i bp mbrest hmb
    cases hg
    set t : Pool M D := { s with
      mbfreelist := mbrest
      dbfreelist := update s.dbfreelist c (s.dbfreelist c).tail
      dbaCnt := update s.dbaCnt c (s.dbaCnt c + 1)
      cont := update s.cont nb none
      datap := update s.datap nb (some d)
      rptr := update s.rptr nb 0
      wptr := update s.wptr nb 0
      dbType := update s.dbType d M_DATA
      dbRef := update s.dbRef d 1 } with ht
    have htake : Takes nb d s t := ⟨hmb, rfl⟩
    have hcard := card_users_take h.mb_nodup htake
    have hnodup := h.db_nodup c
    rw [hlist] at hnodup
    refine ⟨⟨?_, fun c' => ?_, h.datap_take htake, fun d' => ?_, fun c' d' => ?_, fun c' => ?_⟩, htake⟩
    · have := h.mb_nodup
      rw [hmb] at this
      exact (nodup_cons.mp this).2
    · show (update s.dbfreelist c (s.dbfreelist c).tail c').Nodup
      rw [update_apply]
      split_ifs
      · exact (h.db_nodup c).tail
      · exact h.db_nodup c'
    · show (update s.dbRef d 1 d').toNat = _
      rw [update_apply, hcard]
      split_ifs with hdd
      · rw [hdd, hzero]
        rfl
      · exact h.ref d'
    · show d' ∈ update s.dbfreelist c (s.dbfreelist c).tail c' ↔ s.dbClass d' = c' ∧ _
      rw [update_apply, hcard]
      have hold := h.free c' d'
      by_cases hdd : d' = d
      · rw [if_pos hdd, hdd]
        refine ⟨fun hm => ?_, fun hm => absurd hm.2 (Nat.succ_ne_zero _)⟩
        split_ifs at hm with hc
        · rw [hlist] at hm
          exact absurd hm (nodup_cons.mp hnodup).1
        · rw [hdd] at hold
          exact absurd ((hold.mp hm).1.symm.trans hcls) hc
      · rw [if_neg hdd, Nat.add_zero, ← hold]
        split_ifs with hc
        · rw [hc, hlist, tail_cons, mem_cons]
          exact ⟨Or.inr, fun hm => hm.resolve_left hdd⟩
        · rfl
    · show update s.dbaCnt c (s.dbaCnt c + 1) c' = _
      rw [card_inUse_grow (t := t) (s := s) rfl hzero (fun d' => ?_), update_apply, hcls]
      · split_ifs with hc
        · rw [hc, h.cnt]
          rfl
        · exact h.cnt c'
      · rw [hcard]
        split_ifs with hdd
        · exact ⟨fun _ => Or.inl hdd, fun _ => Nat.succ_ne_zero _⟩
        · exact ⟨Or.inr, fun hm => hm.resolve_left hdd⟩

omit [DecidableEq M] [DecidableEq D] [Fintype M] [Fintype D] in
theorem head_of_offer {pri : ℕ} (h : s.offer pri c = some d) : (s.dbfreelist c).head? = some d := by
  unfold offer at h
  split_ifs at h
  exact h

theorem Exact.allocb (h : s.Exact) {size : ℤ} {pri : ℕ} (ha : s.allocb size pri = some (nb, t)) :
    t.Exact ∧ ∃ d, Takes nb d s t := by
  unfold Pool.allocb at ha
  obtain ⟨c, -, ha⟩ := bind_eq_some_iff.mp ha
  split at ha
  · rename_i d hd
    obtain ⟨h1, h2⟩ := h.gotdp (head_of_offer hd) ha
    exact ⟨h1, d, h2⟩
  · split_ifs at ha
    obtain ⟨d, hd, ha⟩ := bind_eq_some_iff.mp ha
    obtain ⟨h1, h2⟩ := h.gotdp (head_of_offer hd) ha
    exact ⟨h1, d, h2⟩

/-- `copyb` is `allocb` and changes nothing the counts are about. -/
theorem Exact.copyb (h : s.Exact) (hc : s.copyb b = some (nb, t)) : t.Exact ∧ ∃ d, Takes nb d s t := by
  unfold Pool.copyb at hc
  obtain ⟨dp, -, hc⟩ := bind_eq_some_iff.mp hc
  obtain ⟨⟨nbp, u⟩, hu, hc⟩ := bind_eq_some_iff.mp hc
  obtain ⟨ndp, -, hc⟩ := map_eq_some_iff.mp hc
  cases hc
  obtain ⟨h1, d, h2⟩ := h.allocb hu
  exact ⟨h1.same ⟨rfl, rfl, rfl, rfl, rfl, rfl⟩, d, h2.free, h2.datap⟩

/-- `dupb` of a block whose data block has fewer than 255 users. -/
theorem Exact.dupb (h : s.Exact) (hb : b ∉ s.mbfreelist) (hd : s.datap b = some d)
    (hfit : (s.users d).card < 255) (hdup : s.dupb b = some (nb, t)) :
    t.Exact ∧ Takes nb d s t := by
  have hpos : (s.users d).card ≠ 0 := Finset.card_ne_zero_of_mem (mem_users.mpr ⟨hb, hd⟩)
  unfold Pool.dupb at hdup
  rw [hd] at hdup
  split at hdup
  · rename_i nbp rest d' hmb heq
    cases heq
    cases hdup
    set t : Pool M D := { s with
      mbfreelist := rest
      cont := update s.cont nb none
      rptr := update s.rptr nb (s.rptr b)
      wptr := update s.wptr nb (s.wptr b)
      datap := update s.datap nb (some d)
      dbRef := update s.dbRef d (s.dbRef d + 1) } with ht
    have htake : Takes nb d s t := ⟨hmb, rfl⟩
    have hcard := card_users_take h.mb_nodup htake
    have hzero : ∀ d', (t.users d').card = 0 ↔ (s.users d').card = 0 := by
      intro d'
      rw [hcard]
      by_cases hdd : d' = d
      · rw [if_pos hdd, hdd]
        omega
      · rw [if_neg hdd, Nat.add_zero]
    refine ⟨⟨?_, h.db_nodup, h.datap_take htake, fun d' => ?_, fun c d' => ?_, fun c => ?_⟩, htake⟩
    · have := h.mb_nodup
      rw [hmb] at this
      exact (nodup_cons.mp this).2
    · show (update s.dbRef d (s.dbRef d + 1) d').toNat = _
      have hone : (1 : UInt8).toNat = 1 := rfl
      rw [update_apply, hcard]
      split_ifs with hdd
      · rw [UInt8.toNat_add, h.ref, hone, hdd]
        omega
      · exact h.ref d'
    · rw [hzero]
      exact h.free c d'
    · rw [inUse_congr (t := t) (s := s) rfl hzero]
      exact h.cnt c
  · cases hdup

/-- What `freeb` does to the fields of the pool. -/
structure Freed (b : M) (d : D) (s t : Pool M D) : Prop extends Drops b s t where
  dbRef : t.dbRef = update s.dbRef d (s.dbRef d - 1)
  dbClass : t.dbClass = s.dbClass
  dbfreelist : t.dbfreelist = if s.dbRef d - 1 = 0 then
    update s.dbfreelist (s.dbClass d) (d :: s.dbfreelist (s.dbClass d)) else s.dbfreelist
  dbaCnt : t.dbaCnt = if s.dbRef d - 1 = 0 then
    update s.dbaCnt (s.dbClass d) (s.dbaCnt (s.dbClass d) - 1) else s.dbaCnt

omit [Fintype M] [Fintype D] in
theorem freed_freeb (hd : s.datap b = some d) : Freed b d s (s.freeb b) := by
  unfold freeb
  rw [hd]
  simp only
  split_ifs with h0
  · exact ⟨⟨rfl, rfl⟩, rfl, rfl, (if_pos h0).symm, (if_pos h0).symm⟩
  · exact ⟨⟨rfl, rfl⟩, rfl, rfl, (if_neg h0).symm, (if_neg h0).symm⟩

/-- The data block goes to its free list with its last user. -/
theorem Exact.freed (h : s.Exact) (hb : b ∉ s.mbfreelist) (hd : s.datap b = some d)
    (hf : Freed b d s t) : t.Exact := by
  have hcard := card_users_drop hf.toDrops hb hd
  have hone : (1 : UInt8).toNat = 1 := rfl
  have hd1 := hcard d
  rw [if_pos rfl] at hd1
  have hsub : (s.dbRef d - 1).toNat = (t.users d).card := by
    rw [UInt8.toNat_sub_of_le _ _ (UInt8.le_iff_toNat_le.mpr (by rw [h.ref, hone]; omega)), h.ref,
      hone]
    omega
  have hlast : s.dbRef d - 1 = 0 ↔ (t.users d).card = 0 := by
    rw [← hsub, ← UInt8.toNat_inj]
    rfl
  have hne : ∀ d' ≠ d, (t.users d').card = (s.users d').card := by
    intro d' hdd
    rw [hcard d', if_neg hdd, Nat.add_zero]
  have hnot : ∀ c, d ∉ s.dbfreelist c := fun c hm => by
    have := ((h.free c d).mp hm).2
    omega
  refine ⟨?_, fun c => ?_, fun x hx => ?_, fun d' => ?_, fun c d' => ?_, fun c => ?_⟩
  · rw [hf.free]
    exact nodup_cons.mpr ⟨hb, h.mb_nodup⟩
  · rw [hf.dbfreelist]
    split_ifs
    · rw [update_apply]
      split_ifs
      · exact nodup_cons.mpr ⟨hnot _, h.db_nodup _⟩
      · exact h.db_nodup c
    · exact h.db_nodup c
  · rw [hf.free, mem_cons, not_or] at hx
    rw [hf.datap, update_of_ne hx.1]
    exact h.datap x hx.2
  · rw [hf.dbRef, update_apply]
    split_ifs with hdd
    · rw [hdd, hsub]
    · rw [hne d' hdd]
      exact h.ref d'
  · -- the free list of the class of `d` grows when the last user is gone
    rw [hf.dbfreelist, hf.dbClass]
    by_cases hdd : d' = d
    · subst hdd
      rw [← hlast]
      split_ifs with hz
      · rw [update_apply]
        split_ifs with hc
        · exact ⟨fun _ => ⟨hc.symm, hz⟩, fun _ => mem_cons_self⟩
        · exact ⟨fun hm => absurd hm (hnot c), fun hm => absurd hm.1.symm hc⟩
      · exact ⟨fun hm => absurd hm (hnot c), fun hm => absurd hm.2 hz⟩
    · rw [hne d' hdd, ← h.free c d']
      split_ifs
      · rw [update_apply]
        split_ifs with hc
        · rw [mem_cons, hc]
          exact ⟨fun hm => hm.resolve_left hdd, Or.inr⟩
        · rfl
      · rfl
  · rw [hf.dbaCnt]
    by_cases hz : s.dbRef d - 1 = 0
    · have hgrow := card_inUse_grow (t := s) (s := t) hf.dbClass.symm (hlast.mp hz) (fun d' => by
        by_cases hdd : d' = d
        · rw [hdd]
          exact ⟨fun _ => Or.inl rfl, fun _ => by omega⟩
        · rw [hne d' hdd]
          exact ⟨Or.inr, fun hm => hm.resolve_left hdd⟩) c
      rw [hf.dbClass] at hgrow
      rw [if_pos hz, update_apply]
      have hc := h.cnt c
      split_ifs with hcd
      · rw [if_pos hcd] at hgrow
        rw [← hcd]
        omega
      · rw [if_neg hcd] at hgrow
        omega
    · rw [if_neg hz, inUse_congr hf.dbClass fun d' => ?_]
      · exact h.cnt c
      · by_cases hdd : d' = d
        · rw [hdd, ← hlast]
          exact ⟨fun hc => absurd hc hz, fun hc => by omega⟩
        · rw [hne d' hdd]

/-- `freeb` of a live block. -/
theorem Exact.freeb (h : s.Exact) (hb : b ∉ s.mbfreelist) :
    (s.freeb b).Exact ∧ Drops b s (s.freeb b) := by
  obtain ⟨d, hd⟩ := isSome_iff_exists.mp (h.datap b hb)
  exact ⟨h.freed hb hd (freed_freeb hd), (freed_freeb hd).toDrops⟩

/-! ## Messages -/

/-- `freemsg` of live blocks. -/
theorem Exact.freemsg {l : List M} (h : s.Exact) (hnd : l.Nodup) (hl : ∀ b ∈ l, b ∉ s.mbfreelist) :
    (Pool.freemsg l s).Exact := by
  induction l generalizing s with
  | nil => exact h
  | cons b rest ih =>
    obtain ⟨hb, hnd⟩ := nodup_cons.mp hnd
    obtain ⟨h1, h2⟩ := h.freeb (hl b mem_cons_self)
    refine ih h1 hnd fun x hx => ?_
    rw [h2.free, mem_cons, not_or]
    exact ⟨fun he => hb (he ▸ hx), hl x (mem_cons_of_mem _ hx)⟩

/-- What the loop of `dupmsg` and `copymsg` needs of the routine for one block: from a
state with the blocks `l` to go it leads to one with the rest to go, and `P` says that
the counts are exact. -/
structure Copies (f : Pool M D → M → Option (M × Pool M D)) (P : Pool M D → List M → Prop) : Prop where
  exact : ∀ s l, P s l → s.Exact
  cont : ∀ s l c, P s l → P { s with cont := c } l
  copy : ∀ s b l nb t, P s (b :: l) → f s b = some (nb, t) →
    P t l ∧ s.mbfreelist = nb :: t.mbfreelist

variable {f : Pool M D → M → Option (M × Pool M D)} {P : Pool M D → List M → Prop}

theorem Copies.msgLoop (hf : Copies f P) {l done : List M} (h : P s l) (hnd : done.Nodup)
    (hdone : ∀ b ∈ done, b ∉ s.mbfreelist) : (Pool.msgLoop f nb done l s).2.Exact := by
  induction l generalizing s nb done with
  | nil => exact hf.exact s [] h
  | cons b l ih =>
    rw [Pool.msgLoop]
    cases hfb : f s b with
    | none =>
      have hs := (hf.exact _ _ h).same (t := { s with cont := update s.cont nb none })
        ⟨rfl, rfl, rfl, rfl, rfl, rfl⟩
      exact hs.freemsg hnd hdone
    | some r =>
      obtain ⟨b', t⟩ := r
      obtain ⟨h1, h2⟩ := hf.copy s b l b' t h hfb
      have hs := (hf.exact _ _ h).mb_nodup
      rw [h2] at hs
      refine ih (hf.cont t l _ h1) ?_ fun x hx => ?_
      · rw [nodup_append]
        refine ⟨hnd, nodup_singleton b', fun x hx y hy he => ?_⟩
        apply hdone x hx
        rw [h2, he, mem_singleton.mp hy]
        exact mem_cons_self
      · show x ∉ t.mbfreelist
        rcases mem_append.mp hx with hx | hx
        · intro hm
          apply hdone x hx
          rw [h2]
          exact mem_cons_of_mem _ hm
        · rw [mem_singleton.mp hx]
          exact (nodup_cons.mp hs).1

theorem Copies.msgCopy (hf : Copies f P) {l : List M} (h : P s l) : (Pool.msgCopy f l s).2.Exact := by
  cases l with
  | nil => exact hf.exact s [] h
  | cons b l =>
    simp only [Pool.msgCopy]
    cases hfb : f s b with
    | none => exact hf.exact s _ h
    | some r =>
      obtain ⟨b', t⟩ := r
      obtain ⟨h1, h2⟩ := hf.copy s b l b' t h hfb
      have hs := (hf.exact _ _ h).mb_nodup
      rw [h2] at hs
      refine hf.msgLoop h1 (nodup_singleton b') fun x hx => ?_
      rw [mem_singleton.mp hx]
      exact (nodup_cons.mp hs).1

/-- The blocks to go are live. -/
def Copyable (s : Pool M D) (l : List M) : Prop := s.Exact ∧ ∀ b ∈ l, b ∉ s.mbfreelist

/-- The blocks to go are live, and duplicating them gives no data block a 256th user. -/
def Dupable (s : Pool M D) (l : List M) : Prop :=
  Copyable s l ∧ ∀ d, (s.users d).card + l.countP (fun b => s.datap b = some d) ≤ 255

omit [DecidableEq M] [DecidableEq D] [Fintype M] [Fintype D] in
theorem not_mem_of_free (h : s.mbfreelist = nb :: t.mbfreelist) (hb : b ∉ s.mbfreelist) :
    b ≠ nb ∧ b ∉ t.mbfreelist := by
  rw [h, mem_cons, not_or] at hb
  exact hb

theorem copies_copyb : Copies (M := M) (D := D) Pool.copyb Copyable where
  exact := fun _ _ h => h.1
  cont := fun _ _ _ h => ⟨h.1.same ⟨rfl, rfl, rfl, rfl, rfl, rfl⟩, h.2⟩
  copy := by
    intro s b l nb t h hc
    obtain ⟨h1, d, h2⟩ := h.1.copyb hc
    exact ⟨⟨h1, fun x hx => (not_mem_of_free h2.free (h.2 x (mem_cons_of_mem _ hx))).2⟩, h2.free⟩

theorem copies_dupb : Copies (M := M) (D := D) Pool.dupb Dupable where
  exact := fun _ _ h => h.1.1
  cont := fun _ _ _ h => ⟨⟨h.1.1.same ⟨rfl, rfl, rfl, rfl, rfl, rfl⟩, h.1.2⟩, h.2⟩
  copy := by
    intro s b l nb t ⟨⟨h, hlive⟩, hfit⟩ hc
    have hb := hlive b mem_cons_self
    obtain ⟨d, hd⟩ := isSome_iff_exists.mp (h.datap b hb)
    have hd1 := hfit d
    rw [countP_cons_of_pos (by simpa using hd)] at hd1
    obtain ⟨h1, h2⟩ := h.dupb hb hd (by omega) hc
    have hl := fun x hx => not_mem_of_free h2.free (hlive x (mem_cons_of_mem _ hx))
    refine ⟨⟨⟨h1, fun x hx => (hl x hx).2⟩, fun d' => ?_⟩, h2.free⟩
    have hcount : l.countP (fun x => t.datap x = some d') = l.countP fun x => s.datap x = some d' := by
      refine countP_congr fun x hx => ?_
      rw [h2.datap, update_of_ne (hl x hx).1]
    rw [card_users_take h.mb_nodup h2, hcount]
    have hd' := hfit d'
    by_cases hdd : d' = d
    · rw [if_pos hdd, hdd]
      omega
    · rw [countP_cons_of_neg (by rw [hd]; simpa using Ne.symm hdd)] at hd'
      rw [if_neg hdd]
      omega

/-! ## Histories -/

/-- The blocks a call duplicates. -/
def dups : BufCall M → List M
  | .dupb bp => [bp]
  | .dupmsg msg => msg
  | _ => []

/-- A call gives no data block a 256th user. -/
def Below256 (s : Pool M D) (c : BufCall M) : Prop :=
  ∀ d, (s.users d).card + (dups c).countP (fun b => s.datap b = some d) ≤ 255

/-- **One call keeps the counts exact**, unless it gives a data block a 256th user. -/
theorem Exact.step (h : s.Exact) {c : BufCall M} (hfit : Below256 s c) (hc : s.step c = some t) :
    t.Exact := by
  cases c with
  | allocb size pri =>
    cases hc
    cases ha : s.allocb size pri with
    | none => exact h
    | some r => exact (h.allocb ha).1
  | dupb b =>
    rw [Pool.step] at hc
    split_ifs at hc with hb
    cases hc
    cases hd : s.dupb b with
    | none => exact h
    | some r =>
      have hP : Dupable s [b] := ⟨⟨h, fun x hx => (mem_singleton.mp hx) ▸ hb⟩, hfit⟩
      exact (copies_dupb.copy s b [] r.1 r.2 hP hd).1.1.1
  | dupmsg msg =>
    rw [Pool.step] at hc
    split_ifs at hc with hm
    cases hc
    exact copies_dupb.msgCopy ⟨⟨h, hm.2.1⟩, hfit⟩
  | copyb b =>
    rw [Pool.step] at hc
    split_ifs at hc
    cases hc
    cases hd : s.copyb b with
    | none => exact h
    | some r => exact (h.copyb hd).1
  | copymsg msg =>
    rw [Pool.step] at hc
    split_ifs at hc with hm
    cases hc
    exact copies_copyb.msgCopy ⟨h, hm.2.1⟩
  | freeb b =>
    rw [Pool.step] at hc
    split_ifs at hc with hb
    cases hc
    exact (h.freeb hb).1
  | freemsg msg =>
    rw [Pool.step] at hc
    split_ifs at hc with hm
    cases hc
    exact h.freemsg hm.1 hm.2.1
  | linkb mp bp =>
    rw [Pool.step] at hc
    split_ifs at hc
    cases hc
    unfold linkb
    split
    · exact h
    · exact h.same ⟨rfl, rfl, rfl, rfl, rfl, rfl⟩
  | unlinkb b =>
    rw [Pool.step] at hc
    split_ifs at hc
    cases hc
    exact h.same ⟨rfl, rfl, rfl, rfl, rfl, rfl⟩
  | edit b rptr wptr type bytes =>
    rw [Pool.step] at hc
    split_ifs at hc
    cases hc
    unfold edit
    split
    · exact h
    · exact h.same ⟨rfl, rfl, rfl, rfl, rfl, rfl⟩

/-- A pool with all blocks on their free lists, as `strinit` leaves it. -/
structure Boot (s : Pool M D) : Prop where
  mb_nodup : s.mbfreelist.Nodup
  mb_all : ∀ b, b ∈ s.mbfreelist
  db_nodup : ∀ c, (s.dbfreelist c).Nodup
  db_all : ∀ c d, d ∈ s.dbfreelist c ↔ s.dbClass d = c
  ref : ∀ d, s.dbRef d = 0
  cnt : ∀ c, s.dbaCnt c = 0

theorem Boot.exact (h : s.Boot) : s.Exact := by
  have husers : ∀ d, s.users d = ∅ := by
    intro d
    refine Finset.eq_empty_of_forall_notMem fun b hb => ?_
    exact (mem_users.mp hb).1 (h.mb_all b)
  have hinUse : ∀ c, s.inUse c = ∅ := by
    intro c
    refine Finset.eq_empty_of_forall_notMem fun d hd => ?_
    exact (mem_inUse.mp hd).2 (by rw [husers, Finset.card_empty])
  refine ⟨h.mb_nodup, h.db_nodup, fun b hb => absurd (h.mb_all b) hb, fun d => ?_, fun c d => ?_,
    fun c => ?_⟩
  · rw [h.ref, husers]
    rfl
  · rw [h.db_all, husers, Finset.card_empty]
    exact ⟨fun hc => ⟨hc, rfl⟩, fun hc => hc.1⟩
  · rw [h.cnt, hinUse, Finset.card_empty]
    rfl

/-- **Data blocks are reference counted exactly** in every state of a history, from one
where they are, in which no data block gets a 256th user. -/
theorem ref_exact {calls : List (BufCall M)} (hs : s.Exact)
    (hok : StepsMeet Below256 Pool.step s calls) (h : exec Pool.step s calls = some t) : t.Exact :=
  exec_invariant (fun _ _ _ hx hc hstep => hx.step hc hstep) hs hok h

/-- `nmblock` message blocks and one data block of the smallest class, all free. -/
def small (nmblock : ℕ) : Pool (Fin nmblock) (Fin 1) where
  mbfreelist := List.finRange nmblock
  dbfreelist c := if c = 0 then [0] else []
  cont _ := none
  datap _ := none
  rptr _ := 0
  wptr _ := 0
  dbRef _ := 0
  dbType _ := M_DATA
  dbClass _ := 0
  dbSize _ := 4
  data _ _ := 0
  dbaCnt _ := 0
  dbaLo _ := 1
  dbaMed _ := 1
  nmblock := nmblock

theorem length_small (n : ℕ) : (small n).mbfreelist.length = n := length_finRange

theorem small_boot (n : ℕ) : (small n).Boot := by
  refine ⟨nodup_finRange n, mem_finRange, fun c => ?_, fun c d => ?_, fun _ => rfl,
    fun _ => rfl⟩
  · show (if c = 0 then [(0 : Fin 1)] else []).Nodup
    split_ifs
    · exact nodup_singleton 0
    · exact nodup_nil
  · show d ∈ (if c = 0 then [0] else []) ↔ 0 = c
    split_ifs with hc
    · exact ⟨fun _ => hc.symm, fun _ => mem_singleton.mpr (Subsingleton.elim d 0)⟩
    · exact ⟨fun hm => absurd hm not_mem_nil, fun he => absurd he.symm hc⟩

/-- A block is allocated, duplicated and freed while its duplicate lives on. -/
theorem ref_exact_dup : ∃ t, exec Pool.step (small 3)
    [.allocb 4 BPRI_HI, .dupb 0, .freeb 0] = some t ∧ t.Exact := by
  obtain ⟨t, ht⟩ : ∃ t, exec Pool.step (small 3)
      [.allocb 4 BPRI_HI, .dupb 0, .freeb 0] = some t := ⟨_, rfl⟩
  refine ⟨t, ht, ref_exact (small_boot 3).exact (stepsMeet_of_forall fun c hc s d => ?_) ht⟩
  have h1 : (s.users d).card ≤ 3 := Finset.card_le_univ _
  have h2 : (dups c).length ≤ 1 := by
    simp only [mem_cons, not_mem_nil, or_false] at hc
    rcases hc with rfl | rfl | rfl
    · exact Nat.zero_le _
    · exact le_rfl
    · exact Nat.zero_le _
  have h3 := countP_le_length (p := fun b => decide (s.datap b = some d)) (l := dups c)
  omega

omit [Fintype D] in
/-- Duplicating a block again and again: `db_ref` follows the number of users in 8 bits. -/
theorem exec_dupb (n : ℕ) (hb : b ∉ s.mbfreelist) (hd : s.datap b = some d)
    (hnd : s.mbfreelist.Nodup) (hn : n ≤ s.mbfreelist.length) :
    ∃ t, exec Pool.step s (List.replicate n (.dupb b)) = some t ∧
      (t.dbRef d).toNat = ((s.dbRef d).toNat + n) % 256 ∧
      (t.users d).card = (s.users d).card + n := by
  induction n generalizing s with
  | zero =>
    refine ⟨s, rfl, ?_, rfl⟩
    have := (s.dbRef d).toNat_lt
    omega
  | succ n ih =>
    cases hmb : s.mbfreelist with
    | nil =>
      rw [hmb] at hn
      exact absurd hn (Nat.not_succ_le_zero n)
    | cons nb rest =>
      obtain ⟨u, hu, hfree, hdata, href⟩ : ∃ u, s.dupb b = some (nb, u) ∧ u.mbfreelist = rest ∧
          u.datap = update s.datap nb (some d) ∧
          u.dbRef = update s.dbRef d (s.dbRef d + 1) := by
        unfold Pool.dupb
        rw [hmb, hd]
        exact ⟨_, rfl, rfl, rfl, rfl⟩
      have htake : Takes nb d s u := ⟨by rw [hmb, hfree], hdata⟩
      have hstep : s.step (.dupb b) = some u := by
        rw [Pool.step, if_neg hb, hu]
        rfl
      rw [hmb] at hb hnd hn
      rw [mem_cons, not_or] at hb
      obtain ⟨t, ht, h1, h2⟩ := ih (s := u) (hfree ▸ hb.2)
        (by rw [hdata, update_of_ne hb.1, hd]) (hfree ▸ (nodup_cons.mp hnd).2)
        (by rw [hfree]; exact Nat.le_of_succ_le_succ hn)
      refine ⟨t, exec_cons.mpr ⟨u, hstep, ht⟩, ?_, ?_⟩
      · have hone : (1 : UInt8).toNat = 1 := rfl
        rw [h1, href, update_self, UInt8.toNat_add, hone]
        omega
      · rw [h2, card_users_take (hmb ▸ hnd) htake, if_pos rfl]
        omega

/-- After 255 duplicates of one block `db_ref` is back at zero, with 256 users. -/
theorem dupb_wraps : ¬ ∀ (s t : Pool (Fin 256) (Fin 1)) (calls : List (BufCall (Fin 256))),
    s.Exact → exec Pool.step s calls = some t → t.Exact := by
  intro h
  have hboot := small_boot 256
  obtain ⟨⟨nb, u⟩, hu⟩ : ∃ r, (small 256).allocb 4 BPRI_HI = some r := ⟨_, rfl⟩
  obtain ⟨hexact, d, htake⟩ := hboot.exact.allocb hu
  have hstep : (small 256).step (.allocb 4 BPRI_HI) = some u := by
    rw [Pool.step, hu]
    rfl
  have hlen := length_small 256
  have hnd := hboot.mb_nodup
  rw [htake.free] at hnd hlen
  have hnb : u.datap nb = some d := by rw [htake.datap, update_self]
  have hone : (u.users d).card = 1 := by
    have hzero : ((small 256).users d).card = 0 := by
      rw [← hboot.exact.ref d, hboot.ref]
      rfl
    rw [card_users_take hboot.mb_nodup htake, if_pos rfl, hzero]
  obtain ⟨t, ht, href, husers⟩ := exec_dupb 255 (nodup_cons.mp hnd).1 hnb
    (nodup_cons.mp hnd).2 (by rw [length_cons] at hlen; omega)
  have hrun := (h _ t _ hboot.exact (exec_cons.mpr ⟨u, hstep, ht⟩)).ref d
  rw [href, husers, hexact.ref, hone] at hrun
  exact absurd hrun (by decide)

end Pool
end Io
