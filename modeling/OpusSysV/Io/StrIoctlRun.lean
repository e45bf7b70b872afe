import OpusSysV.Io.StrIoctl

/-!
# Stream ioctls do not mix

* `Pc.own`, `Pc.block`, `Pc.Ok` — what a process has while it is where it is.
* `At`, `Blocks` — where a reply is: one place each.
* `Inv` — one outstanding ioctl, marked by `IOCWAIT`, and its identifier in `sd_iocid`.
* `Inv.quiet`, `Inv.acquire`, `Inv.release` — the three ways in which a turn changes this.
* `ioctl_run` — every run.
-/

namespace Io.Ioc

open Lib Function List Option

/-! ## What a process has -/

namespace Pc

/-- The identifier of the request that is outstanding. -/
def own : Pc → Option ℕ
  | sent _ ioc_id => some ioc_id
  | reply _ _ _ ioc_id => some ioc_id
  | _ => Option.none

/-- The reply that is held. -/
def block : Pc → Option ℕ
  | got _ _ bp => some bp.addr
  | _ => Option.none

/-- Asleep until `wakeup(&stp->sd_iocwait)`. -/
def asleep1 : Pc → Bool
  | wait _ asleep _ => asleep
  | _ => false

end Pc

/-- How a call ended and what it returns: a reply carries the identifier of the call's request. -/
def Ret.Ok (r : Ret) : Prop :=
  match r.how with
  | .refused => r.ioc_id = none
  | .timeout => r.u_error = ETIME
  | .signal => r.u_error = EINTR
  | .stream => True
  | .reply bp => r.ioc_id = some bp.iocblk.ioc_id

def Pc.Ok : Pc → Prop
  | got _ ioc_id bp => bp.iocblk.ioc_id = ioc_id
  | ret r => r.Ok
  | _ => True

section wake

variable (x : Pc)

@[simp] theorem own_wake1 : x.wake1.own = x.own := by cases x <;> rfl

@[simp] theorem own_wake2 : x.wake2.own = x.own := by cases x <;> rfl

@[simp] theorem block_wake1 : x.wake1.block = x.block := by cases x <;> rfl

@[simp] theorem block_wake2 : x.wake2.block = x.block := by cases x <;> rfl

@[simp] theorem asleep1_wake1 : x.wake1.asleep1 = false := by cases x <;> rfl

@[simp] theorem asleep1_wake2 : x.wake2.asleep1 = x.asleep1 := by cases x <;> rfl

@[simp] theorem ok_wake1 : x.wake1.Ok ↔ x.Ok := by cases x <;> exact Iff.rfl

@[simp] theorem ok_wake2 : x.wake2.Ok ↔ x.Ok := by cases x <;> exact Iff.rfl

end wake

/-! ## Where the replies are -/

inductive Place
  | free
  | slot
  | held (p : ℕ)
  deriving DecidableEq, Repr

/-- The reply at address `b` is at a place. -/
def At (s : Sys) (b : ℕ) : Place → Prop
  | .free => b ∈ s.freed
  | .slot => s.sd_iocblk.map Mblk.addr = some b
  | .held p => (s.pc p).block = some b

/-- Each reply that has arrived is at one place, was freed at most once, and taken by at most one
process. -/
structure Blocks (s : Sys) : Prop where
  place : ∀ b < s.arrived, ∃! x, At s b x
  known : ∀ b x, At s b x → b < s.arrived
  freed : s.freed.Nodup
  taken : (s.taken.map Prod.fst).Nodup
  gone : ∀ b ∈ s.taken.map Prod.fst, At s b .free ∨ ∃ p, At s b (.held p)

section blocks

variable {s t : Sys} {b c : ℕ} {y : Place}

theorem Blocks.lt_of_mem (h : Blocks s) (hb : b ∈ s.taken.map Prod.fst) : b < s.arrived := by
  rcases h.gone b hb with hb | ⟨p, hb⟩
  · exact h.known b _ hb
  · exact h.known b _ hb

/-- Nothing moves. -/
theorem Blocks.congr (h : Blocks s) (hb : t.sd_iocblk = s.sd_iocblk) (hf : t.freed = s.freed)
    (ha : t.arrived = s.arrived) (ht : t.taken = s.taken)
    (hpc : ∀ p, (t.pc p).block = (s.pc p).block) : Blocks t := by
  have hAt : ∀ b x, At t b x ↔ At s b x := by
    intro b x
    cases x with
    | free => rw [At, At, hf]
    | slot => rw [At, At, hb]
    | held p => rw [At, At, hpc]
  refine ⟨fun b hlt => ?_, fun b x hx => ?_, hf ▸ h.freed, ht ▸ h.taken, fun b hm => ?_⟩
  · obtain ⟨x, hx, hu⟩ := h.place b (ha ▸ hlt)
    exact ⟨x, (hAt b x).mpr hx, fun y hy => hu y ((hAt b y).mp hy)⟩
  · rw [ha]
    exact h.known b x ((hAt b x).mp hx)
  · simp only [hAt]
    exact h.gone b (ht ▸ hm)

/-- The reply at `c` moves, or arrives. -/
theorem Blocks.move (h : Blocks s) (hAt : ∀ b x, b ≠ c → (At t b x ↔ At s b x))
    (hc : ∀ x, At t c x ↔ x = y) (ha : ∀ b, b < t.arrived ↔ b = c ∨ b < s.arrived)
    (hf : t.freed.Nodup) (ht : (t.taken.map Prod.fst).Nodup)
    (hgone : ∀ b ∈ t.taken.map Prod.fst, b ∈ s.taken.map Prod.fst ∨ b = c)
    (hy : c ∈ t.taken.map Prod.fst → y ≠ .slot) : Blocks t := by
  refine ⟨fun b hlt => ?_, fun b x hx => ?_, hf, ht, fun b hm => ?_⟩
  · by_cases hbc : b = c
    · subst hbc
      exact ⟨y, (hc y).mpr rfl, fun x hx => (hc x).mp hx⟩
    · obtain ⟨x, hx, hu⟩ := h.place b (((ha b).mp hlt).resolve_left hbc)
      exact ⟨x, (hAt b x hbc).mpr hx, fun y hy => hu y ((hAt b y hbc).mp hy)⟩
  · rw [ha]
    by_cases hbc : b = c
    · exact .inl hbc
    · exact .inr (h.known b x ((hAt b x hbc).mp hx))
  · by_cases hbc : b = c
    · subst hbc
      cases y with
      | free => exact .inl ((hc _).mpr rfl)
      | slot => exact absurd rfl (hy hm)
      | held p => exact .inr ⟨p, (hc _).mpr rfl⟩
    · simp only [hAt b _ hbc]
      exact h.gone b ((hgone b hm).resolve_right hbc)

/-- A reply is at one place only. -/
theorem Blocks.unique {x : Place} (h : Blocks s) (hx : At s b x) (hy : At s b y) : x = y := by
  obtain ⟨z, -, hu⟩ := h.place b (h.known b x hx)
  exact (hu x hx).trans (hu y hy).symm

/-- The reply in the slot is freed. -/
theorem Blocks.clear {bp : Mblk} (h : Blocks s) (hb : s.sd_iocblk = some bp)
    (hb' : t.sd_iocblk = none) (hf : t.freed = bp.addr :: s.freed) (ha : t.arrived = s.arrived)
    (ht : t.taken = s.taken) (hpc : ∀ q, (t.pc q).block = (s.pc q).block) : Blocks t := by
  have hslot : At s bp.addr .slot := by rw [At, hb]; rfl
  refine h.move (c := bp.addr) (y := .free) (fun b x hbc => ?_) (fun x => ?_) (fun b => ?_) ?_
    (ht ▸ h.taken) (fun b hm => .inl (ht ▸ hm)) fun _ => nofun
  · cases x with
    | free => rw [At, At, hf, mem_cons, or_iff_right hbc]
    | slot =>
      rw [At, At, hb', hb]
      exact ⟨fun h => (nomatch h), fun h => absurd (Option.some.inj h).symm hbc⟩
    | held p => rw [At, At, hpc]
  · cases x with
    | free => exact ⟨fun _ => rfl, fun _ => by rw [At, hf]; exact mem_cons_self⟩
    | slot =>
      rw [At, hb']
      exact ⟨fun h => (nomatch h), fun h => nomatch h⟩
    | held p =>
      rw [At, hpc]
      exact ⟨fun hp => (nomatch h.unique (x := .held p) hp hslot), fun h => nomatch h⟩
  · rw [ha]
    exact ⟨.inr, fun hb => hb.elim (fun he => he ▸ h.known _ _ hslot) fun h => h⟩
  · rw [hf]
    exact nodup_cons.mpr ⟨fun hm => (nomatch h.unique (x := .free) hm hslot), h.freed⟩

/-- The reply in the slot is taken by a process. -/
theorem Blocks.take {bp : Mblk} {p : ℕ} (h : Blocks s) (hb : s.sd_iocblk = some bp)
    (hb' : t.sd_iocblk = none) (hf : t.freed = s.freed) (ha : t.arrived = s.arrived)
    (ht : t.taken = (bp.addr, p) :: s.taken) (hp : (t.pc p).block = some bp.addr)
    (hp0 : (s.pc p).block = none) (hpc : ∀ q, q ≠ p → (t.pc q).block = (s.pc q).block) :
    Blocks t := by
  have hslot : At s bp.addr .slot := by rw [At, hb]; rfl
  refine h.move (c := bp.addr) (y := .held p) (fun b x hbc => ?_) (fun x => ?_) (fun b => ?_)
    (hf ▸ h.freed) ?_ (fun b hm => ?_) fun _ => nofun
  · cases x with
    | free => rw [At, At, hf]
    | slot =>
      rw [At, At, hb', hb]
      exact ⟨fun h => (nomatch h), fun h => absurd (Option.some.inj h).symm hbc⟩
    | held q =>
      rcases eq_or_ne q p with rfl | hq
      · rw [At, At, hp, hp0]
        exact ⟨fun h => absurd (Option.some.inj h).symm hbc, fun h => nomatch h⟩
      · rw [At, At, hpc q hq]
  · cases x with
    | free =>
      rw [At, hf]
      exact ⟨fun hm => (nomatch h.unique (x := .free) hm hslot), fun h => nomatch h⟩
    | slot =>
      rw [At, hb']
      exact ⟨fun h => (nomatch h), fun h => nomatch h⟩
    | held q =>
      rcases eq_or_ne q p with rfl | hq
      · exact ⟨fun _ => rfl, fun _ => hp⟩
      · rw [At, hpc q hq]
        refine ⟨fun hm => (nomatch h.unique (x := .held q) hm hslot), fun he => ?_⟩
        cases he
        exact absurd rfl hq
  · rw [ha]
    exact ⟨.inr, fun hb => hb.elim (fun he => he ▸ h.known _ _ hslot) fun h => h⟩
  · rw [ht, map_cons]
    refine nodup_cons.mpr ⟨fun hm => ?_, h.taken⟩
    rcases h.gone _ hm with hx | ⟨q, hx⟩
    · exact nomatch h.unique hx hslot
    · exact nomatch h.unique hx hslot
  · rw [ht, map_cons] at hm
    exact (mem_cons.mp hm).symm

/-- The reply that a process holds is freed. -/
theorem Blocks.drop {p : ℕ} (h : Blocks s) (hp : (s.pc p).block = some c)
    (hb : t.sd_iocblk = s.sd_iocblk) (hf : t.freed = c :: s.freed) (ha : t.arrived = s.arrived)
    (ht : t.taken = s.taken) (hp0 : (t.pc p).block = none)
    (hpc : ∀ q, q ≠ p → (t.pc q).block = (s.pc q).block) : Blocks t := by
  have hheld : At s c (.held p) := hp
  refine h.move (c := c) (y := .free) (fun b x hbc => ?_) (fun x => ?_) (fun b => ?_) ?_
    (ht ▸ h.taken) (fun b hm => .inl (ht ▸ hm)) fun _ => nofun
  · cases x with
    | free => rw [At, At, hf, mem_cons, or_iff_right hbc]
    | slot => rw [At, At, hb]
    | held q =>
      rcases eq_or_ne q p with rfl | hq
      · rw [At, At, hp, hp0]
        exact ⟨fun h => (nomatch h), fun h => absurd (Option.some.inj h).symm hbc⟩
      · rw [At, At, hpc q hq]
  · cases x with
    | free => exact ⟨fun _ => rfl, fun _ => by rw [At, hf]; exact mem_cons_self⟩
    | slot =>
      rw [At, hb]
      exact ⟨fun hm => (nomatch h.unique (x := .slot) hm hheld), fun h => nomatch h⟩
    | held q =>
      refine ⟨fun hm => ?_, fun h => nomatch h⟩
      rcases eq_or_ne q p with rfl | hq
      · rw [At, hp0] at hm
        cases hm
      · rw [At, hpc q hq] at hm
        cases h.unique (x := .held q) hm hheld
        exact absurd rfl hq
  · rw [ha]
    exact ⟨.inr, fun hb => hb.elim (fun he => he ▸ h.known _ _ hheld) fun h => h⟩
  · rw [hf]
    exact nodup_cons.mpr ⟨fun hm => (nomatch h.unique (x := .free) hm hheld), h.freed⟩

/-- A reply arrives, and is freed or put into the empty slot. -/
theorem Blocks.arrive {bp : Mblk} (h : Blocks s) (hbp : bp.addr = s.arrived)
    (ha : t.arrived = s.arrived + 1) (ht : t.taken = s.taken)
    (hpc : ∀ q, (t.pc q).block = (s.pc q).block)
    (hwhere : t.freed = bp.addr :: s.freed ∧ t.sd_iocblk = s.sd_iocblk ∨
      t.freed = s.freed ∧ s.sd_iocblk = none ∧ t.sd_iocblk = some bp) : Blocks t := by
  have hnew : ∀ x, ¬ At s bp.addr x := fun x hx => by
    have hlt := h.known _ x hx
    omega
  have htaken : bp.addr ∉ t.taken.map Prod.fst := fun hm => by
    have hlt := h.lt_of_mem (ht ▸ hm)
    omega
  have hlt : ∀ b, b < t.arrived ↔ b = bp.addr ∨ b < s.arrived := fun b => by omega
  rcases hwhere with ⟨hf, hb⟩ | ⟨hf, hb, hb'⟩
  · refine h.move (c := bp.addr) (y := .free) (fun b x hbc => ?_) (fun x => ?_) hlt ?_
      (ht ▸ h.taken) (fun b hm => .inl (ht ▸ hm)) fun _ => nofun
    · cases x with
      | free => rw [At, At, hf, mem_cons, or_iff_right hbc]
      | slot => rw [At, At, hb]
      | held q => rw [At, At, hpc]
    · cases x with
      | free => exact ⟨fun _ => rfl, fun _ => by rw [At, hf]; exact mem_cons_self⟩
      | slot =>
        rw [At, hb]
        exact ⟨fun hm => absurd hm (hnew .slot), fun h => nomatch h⟩
      | held q =>
        rw [At, hpc]
        exact ⟨fun hm => absurd hm (hnew (.held q)), fun h => nomatch h⟩
    · rw [hf]
      exact nodup_cons.mpr ⟨hnew .free, h.freed⟩
  · refine h.move (c := bp.addr) (y := .slot) (fun b x hbc => ?_) (fun x => ?_) hlt (hf ▸ h.freed)
      (ht ▸ h.taken) (fun b hm => .inl (ht ▸ hm)) fun hm => absurd hm htaken
    · cases x with
      | free => rw [At, At, hf]
      | slot =>
        rw [At, At, hb, hb']
        exact ⟨fun h => absurd (Option.some.inj h).symm hbc, fun h => nomatch h⟩
      | held q => rw [At, At, hpc]
    · cases x with
      | free =>
        rw [At, hf]
        exact ⟨fun hm => absurd hm (hnew .free), fun h => nomatch h⟩
      | slot =>
        rw [At, hb']
        exact ⟨fun _ => rfl, fun _ => rfl⟩
      | held q =>
        rw [At, hpc]
        exact ⟨fun hm => absurd hm (hnew (.held q)), fun h => nomatch h⟩

end blocks

/-! ## The invariant -/

/-- One ioctl is outstanding at most, and `IOCWAIT` says whether one is. -/
structure Inv (s : Sys) : Prop where
  iocwait : s.IOCWAIT = true ↔ ∃ p, (s.pc p).own.isSome = true
  one : ∀ p q, (s.pc p).own.isSome = true → (s.pc q).own.isSome = true → p = q
  id : ∀ p i, (s.pc p).own = some i → s.sd_iocid = i
  slot : ∀ bp, s.sd_iocblk = some bp → s.IOCWAIT = true ∧ bp.iocblk.ioc_id = s.sd_iocid
  turn : s.IOCWAIT = false → ∀ p, (s.pc p).asleep1 = false
  ok : ∀ p, (s.pc p).Ok
  blocks : Blocks s

section inv

variable {s t u : Sys} {p i : ℕ} {x : Pc}

/-- A turn in which no ioctl begins or ends. -/
theorem Inv.quiet (h : Inv s) (hI : t.IOCWAIT = s.IOCWAIT) (hi : t.sd_iocid = s.sd_iocid)
    (hslot : ∀ bp, t.sd_iocblk = some bp → s.IOCWAIT = true ∧ bp.iocblk.ioc_id = s.sd_iocid)
    (hown : ∀ q, (t.pc q).own = (s.pc q).own) (hok : ∀ q, (t.pc q).Ok)
    (hturn : s.IOCWAIT = false → ∀ q, (t.pc q).asleep1 = false) (hb : Blocks t) : Inv t where
  iocwait := by simp only [hI, hown, h.iocwait]
  one := by simp only [hown]; exact h.one
  id := by simp only [hown, hi]; exact h.id
  slot := by rw [hI, hi]; exact hslot
  turn := by rw [hI]; exact hturn
  ok := hok
  blocks := hb

/-- What a turn without replies leaves alone. -/
structure Same (s t : Sys) : Prop where
  IOCWAIT : t.IOCWAIT = s.IOCWAIT
  sd_iocblk : t.sd_iocblk = s.sd_iocblk
  sd_iocid : t.sd_iocid = s.sd_iocid
  arrived : t.arrived = s.arrived
  freed : t.freed = s.freed
  taken : t.taken = s.taken

theorem Inv.same (h : Inv s) (hs : Same s t) (hown : ∀ q, (t.pc q).own = (s.pc q).own)
    (hblock : ∀ q, (t.pc q).block = (s.pc q).block) (hok : ∀ q, (t.pc q).Ok)
    (hturn : s.IOCWAIT = false → ∀ q, (t.pc q).asleep1 = false) : Inv t :=
  h.quiet hs.IOCWAIT hs.sd_iocid (hs.sd_iocblk ▸ h.slot) hown hok hturn
    (h.blocks.congr hs.sd_iocblk hs.freed hs.arrived hs.taken hblock)

/-- Wakeups and flags. -/
theorem Inv.wakes (h : Inv s) (hs : Same s t)
    (hpc : t.pc = s.pc ∨ t.pc = (fun q => (s.pc q).wake1) ∨ t.pc = fun q => (s.pc q).wake2) :
    Inv t := by
  rcases hpc with hpc | hpc | hpc
  · exact h.same hs (by simp [hpc]) (by simp [hpc]) (by simpa [hpc] using h.ok)
      (by simpa [hpc] using h.turn)
  · exact h.same hs (by simp [hpc]) (by simp [hpc]) (by simpa [hpc] using h.ok) (by simp [hpc])
  · exact h.same hs (by simp [hpc]) (by simp [hpc]) (by simpa [hpc] using h.ok)
      (by simpa [hpc] using h.turn)

/-- One process goes on, with what it had. -/
theorem Inv.goes (h : Inv s) (hs : Same s t) (hpc : t.pc = update s.pc p x)
    (hown : x.own = (s.pc p).own) (hblock : x.block = (s.pc p).block) (hok : x.Ok)
    (hturn : s.IOCWAIT = false → x.asleep1 = false) : Inv t := by
  have hself : t.pc p = x := by rw [hpc, update_self]
  have hother : ∀ q, q ≠ p → t.pc q = s.pc q := fun q hq => by rw [hpc, update_of_ne hq]
  refine h.same hs (fun q => ?_) (fun q => ?_) (fun q => ?_) fun hw q => ?_
  · rcases eq_or_ne q p with rfl | hq
    · rw [hself, hown]
    · rw [hother q hq]
  · rcases eq_or_ne q p with rfl | hq
    · rw [hself, hblock]
    · rw [hother q hq]
  · rcases eq_or_ne q p with rfl | hq
    · rw [hself]
      exact hok
    · rw [hother q hq]
      exact h.ok q
  · rcases eq_or_ne q p with rfl | hq
    · rw [hself]
      exact hturn hw
    · rw [hother q hq]
      exact h.turn hw q

/-- An ioctl begins. -/
theorem Inv.acquire (h : Inv s) (hw : s.IOCWAIT = false) (hI : t.IOCWAIT = true)
    (hi : t.sd_iocid = i) (hb : t.sd_iocblk = s.sd_iocblk) (hpc : t.pc = update s.pc p x)
    (hx : x.own = some i) (hblock : x.block = (s.pc p).block) (hok : x.Ok)
    (ha : t.arrived = s.arrived) (hf : t.freed = s.freed) (ht : t.taken = s.taken) : Inv t := by
  have hself : t.pc p = x := by rw [hpc, update_self]
  have hother : ∀ q, q ≠ p → t.pc q = s.pc q := fun q hq => by rw [hpc, update_of_ne hq]
  have hnone : ∀ q, (s.pc q).own.isSome ≠ true := fun q hq => by
    rw [h.iocwait.mpr ⟨q, hq⟩] at hw
    cases hw
  have honly : ∀ q, (t.pc q).own.isSome = true → q = p := fun q hq => by
    by_contra hqp
    rw [hother q hqp] at hq
    exact hnone q hq
  refine ⟨⟨fun _ => ⟨p, by rw [hself, hx]; rfl⟩, fun _ => hI⟩, fun q r hq hr =>
    (honly q hq).trans (honly r hr).symm, fun q j hq => ?_, fun bp hbp => ?_, fun hf => ?_,
    fun q => ?_, h.blocks.congr hb hf ha ht fun q => ?_⟩
  · have hqp := honly q (by rw [hq]; rfl)
    subst hqp
    rw [hself, hx] at hq
    exact hi.trans (Option.some.inj hq)
  · rw [hb] at hbp
    rw [(h.slot bp hbp).1] at hw
    cases hw
  · rw [hI] at hf
    cases hf
  · rcases eq_or_ne q p with rfl | hq
    · rw [hself]
      exact hok
    · rw [hother q hq]
      exact h.ok q
  · rcases eq_or_ne q p with rfl | hq
    · rw [hself, hblock]
    · rw [hother q hq]

/-- An ioctl ends, and the waiting processes are woken. -/
theorem Inv.release (h : Inv s) (hp : (s.pc p).own = some i) (hI : t.IOCWAIT = false)
    (hb : t.sd_iocblk = none) (hpc : t.pc = fun q => (update s.pc p x q).wake1) (hx : x.own = none)
    (hok : x.Ok) (hblocks : Blocks t) : Inv t := by
  have hpc : ∀ q, t.pc q = (update s.pc p x q).wake1 := congrFun hpc
  have hself : t.pc p = x.wake1 := by rw [hpc, update_self]
  have hother : ∀ q, q ≠ p → t.pc q = (s.pc q).wake1 := fun q hq => by
    rw [hpc, update_of_ne hq]
  have hnone : ∀ q, (t.pc q).own = none := by
    intro q
    rcases eq_or_ne q p with rfl | hq
    · rw [hself, own_wake1, hx]
    · rw [hother q hq, own_wake1]
      by_contra hne
      exact hq (h.one q p (isSome_iff_ne_none.mpr hne) (by rw [hp]; rfl))
  refine ⟨?_, fun q r hq => ?_, fun q j hq => ?_, fun bp hbp => ?_, fun _ q => ?_, fun q => ?_,
    hblocks⟩
  · simp [hI, hnone]
  · rw [hnone] at hq
    cases hq
  · rw [hnone] at hq
    cases hq
  · rw [hb] at hbp
    cases hbp
  · rw [hpc]
    exact asleep1_wake1 _
  · rcases eq_or_ne q p with rfl | hq
    · rw [hself, ok_wake1]
      exact hok
    · rw [hother q hq, ok_wake1]
      exact h.ok q

end inv

/-! ## The parts of `strdoioctl` -/

section parts

variable {s : Sys} {p i : ℕ} {strioc : Strioctl} {r : Ret} {how : How} {u_error : ℤ}

theorem clear2_same (s : Sys) : Same s s.clear2 ∧ s.clear2.pc = s.pc := by
  unfold Sys.clear2
  split <;> exact ⟨⟨rfl, rfl, rfl, rfl, rfl, rfl⟩, rfl⟩

section

variable (h : Inv s)

include h

/-- A process without an ioctl returns. -/
theorem Inv.ret (hown : (s.pc p).own = none) (hblock : (s.pc p).block = none)
    (hok : r.Ok) : Inv (s.ret p r) :=
  h.goes ⟨rfl, rfl, rfl, rfl, rfl, rfl⟩ rfl hown.symm hblock.symm hok fun _ => rfl

omit h in
theorem leave1_same (s : Sys) : Same s s.leave1 ∧ s.leave1.pc = s.pc := by
  unfold Sys.leave1
  exact ⟨⟨rfl, rfl, rfl, rfl, rfl, rfl⟩, rfl⟩

theorem Inv.leave : Inv s.leave1 :=
  h.wakes (leave1_same s).1 (.inl (leave1_same s).2)

theorem Inv.clear2 : Inv s.clear2 := h.wakes (clear2_same s).1 (.inl (clear2_same s).2)

theorem Inv.untimeout (id : ℕ) : Inv (s.untimeout id) :=
  h.wakes ⟨rfl, rfl, rfl, rfl, rfl, rfl⟩ (.inl rfl)

theorem Inv.fail1 (hown : (s.pc p).own = none) (hblock : (s.pc p).block = none) (id : ℕ)
    (hok : Ret.Ok ⟨u_error, 0, strioc.ic_len, none, how⟩) :
    Inv (s.fail1 p strioc id u_error how) := by
  have hpc := (clear2_same s).2
  refine (h.clear2.untimeout id).ret ?_ ?_ hok
  · exact (congrFun hpc p ▸ hown :)
  · exact (congrFun hpc p ▸ hblock :)

/-- With nobody's ioctl outstanding the process begins its own. -/
theorem Inv.control (hw : s.IOCWAIT = false) (hblock : (s.pc p).block = none) (id : ℕ) :
    Inv (s.control p strioc id) := by
  obtain ⟨u, hu⟩ : ∃ u, u = (s.untimeout id).clear2 := ⟨_, rfl⟩
  have hsame : Same (s.untimeout id) u ∧ u.pc = s.pc := hu ▸ clear2_same (s.untimeout id)
  have hInv : Inv u := hu ▸ (h.untimeout id).clear2
  have hempty : u.sd_iocblk = none := by
    cases hb : u.sd_iocblk with
    | none => rfl
    | some bp =>
      have hI := (hInv.slot bp hb).1
      rw [hsame.1.IOCWAIT] at hI
      exact absurd (hw.symm.trans hI) Bool.false_ne_true
  have hclear : u.clearBlk = u := by rw [Sys.clearBlk, hempty]
  rw [Sys.control, ← hu, hclear]
  exact hInv.acquire (hsame.1.IOCWAIT.trans hw) rfl rfl rfl rfl rfl
    (by rw [hsame.2, hblock]; rfl) trivial rfl rfl rfl

theorem Inv.loop1 (hown : (s.pc p).own = none) (hblock : (s.pc p).block = none)
    (id : ℕ) : Inv (s.loop1 p strioc id) := by
  unfold Sys.loop1
  cases hw : s.IOCWAIT with
  | true =>
    rw [if_pos rfl]
    refine h.goes ⟨hw.symm, rfl, rfl, rfl, rfl, rfl⟩ rfl hown.symm hblock.symm trivial fun hf => ?_
    rw [hw] at hf
    cases hf
  | false =>
    rw [if_neg Bool.false_ne_true]
    exact h.control hw hblock id

theorem Inv.wake1 (hown : (s.pc p).own = none) (hblock : (s.pc p).block = none)
    (id : ℕ) (intr : Bool) : Inv (s.wake1 p strioc id intr) := by
  have hpc := congrFun (leave1_same s).2 p
  rw [← hpc] at hown hblock
  unfold Sys.wake1
  split
  · refine h.leave.fail1 hown hblock id ?_
    cases s.STR2TIME <;> rfl
  · split
    · exact h.leave.fail1 hown hblock id trivial
    · exact h.leave.loop1 hown hblock id

theorem Inv.enter (hown : (s.pc p).own = none) (hblock : (s.pc p).block = none) :
    Inv (s.enter p strioc) := by
  have hset : Inv (({ s with STR2TIME := true }.timeout .str2time).2) :=
    h.wakes ⟨rfl, rfl, rfl, rfl, rfl, rfl⟩ (.inl rfl)
  exact hset.loop1 hown hblock _

omit h in
/-- A process with an ioctl outstanding holds no reply. -/
theorem block_eq_none {x : Pc} (h : x.own = some i) : x.block = none := by
  cases x <;> first | rfl | cases h

omit h in
/-- What `fail2` leaves. -/
theorem fail2_spec (s : Sys) (p : ℕ) (strioc : Strioctl) (id : Option ℕ) (i : ℕ) (u_error : ℤ)
    (how : How) : ∃ t, s.fail2 p strioc id i u_error how = t ∧ t.IOCWAIT = false ∧
      t.sd_iocblk = none ∧ t.arrived = s.arrived ∧ t.taken = s.taken ∧
      (t.pc = fun q =>
        (update s.pc p (.ret ⟨u_error, 0, strioc.ic_len, some i, how⟩) q).wake1) ∧
      t.freed = (s.sd_iocblk.map Mblk.addr).toList ++ s.freed := by
  refine ⟨_, rfl, ?_⟩
  cases id <;> cases hb : s.sd_iocblk <;>
    simp [Sys.fail2, Sys.clearBlk, Sys.untimeout3, Sys.untimeout, Sys.ret, Sys.wakeup1, Sys.freemsg,
      hb]

section

variable (hown : (s.pc p).own = some i)

include hown

/-- The ioctl of the process fails; a reply that has come is freed. -/
theorem Inv.fail2 (id : Option ℕ)
    (hok : Ret.Ok ⟨u_error, 0, strioc.ic_len, some i, how⟩) :
    Inv (s.fail2 p strioc id i u_error how) := by
  obtain ⟨t, ht, hI, hb, ha, htk, hpc, hf⟩ := fail2_spec s p strioc id i u_error how
  rw [ht]
  have hblock : ∀ q, (t.pc q).block = (s.pc q).block := by
    intro q
    rw [hpc, block_wake1]
    rw [update_apply]
    split_ifs with hq
    · rw [hq, block_eq_none hown]
      rfl
    · rfl
  refine h.release hown hI hb hpc rfl hok ?_
  cases hs : s.sd_iocblk with
  | none =>
    rw [hs] at hf
    exact h.blocks.congr (hb.trans hs.symm) hf ha htk hblock
  | some bp =>
    rw [hs] at hf
    exact h.blocks.clear hs hb hf ha htk hblock

/-- The process takes its reply, which carries the identifier of its request. -/
theorem Inv.take {bp : Mblk} (id : Option ℕ)
    (hbp : s.sd_iocblk = some bp) : Inv (s.take p strioc id i bp) := by
  obtain ⟨t, ht, hI, hb, ha, htk, hpc, hf⟩ : ∃ t, s.take p strioc id i bp = t ∧
      t.IOCWAIT = false ∧ t.sd_iocblk = none ∧ t.arrived = s.arrived ∧
      t.taken = (bp.addr, p) :: s.taken ∧
      (t.pc = fun q => (update s.pc p (.got strioc i bp) q).wake1) ∧ t.freed = s.freed := by
    refine ⟨_, rfl, ?_⟩
    cases id <;> exact ⟨rfl, rfl, rfl, rfl, rfl, rfl⟩
  have hid : bp.iocblk.ioc_id = i := (h.slot bp hbp).2.trans (h.id p i hown)
  rw [ht]
  refine h.release hown hI hb hpc rfl hid (h.blocks.take hbp hb hf ha htk ?_ (block_eq_none hown)
    fun q hq => ?_)
  · rw [hpc, block_wake1, update_self]
    rfl
  · rw [hpc, block_wake1, update_of_ne hq]

theorem Inv.loop2 (id : Option ℕ) :
    Inv (s.loop2 p strioc id i) := by
  unfold Sys.loop2
  cases hbp : s.sd_iocblk with
  | none =>
    dsimp only
    split
    · exact h.fail2 hown id trivial
    · exact h.goes ⟨rfl, hbp.symm ▸ rfl, rfl, rfl, rfl, rfl⟩ rfl hown.symm (block_eq_none hown).symm
        trivial fun _ => rfl
  | some bp => exact h.take hown id hbp

theorem Inv.wake2 (id : Option ℕ) (intr : Bool) :
    Inv (s.wake2 p strioc id i intr) := by
  unfold Sys.wake2
  split
  · refine h.fail2 hown id ?_
    cases s.STR3TIME <;> rfl
  · exact h.loop2 hown id

theorem Inv.await : Inv (s.await p strioc i) := by
  have hset : ∀ u : Sys, Same s u → u.pc = s.pc → Inv u := fun u hu hpc => h.wakes hu (.inl hpc)
  unfold Sys.await
  split
  · exact (hset { (s.timeout .str3time).2 with STR3TIME := true } ⟨rfl, rfl, rfl, rfl, rfl, rfl⟩
      rfl).loop2 hown _
  · exact (hset { s with STR3TIME := true } ⟨rfl, rfl, rfl, rfl, rfl, rfl⟩ rfl).loop2 hown _

end

/-- The process returns with what the reply says. -/
theorem Inv.finish {bp : Mblk} (hp : s.pc p = .got strioc i bp) (copied : Bool) :
    Inv ((s.freemsg bp).ret p (Sys.result strioc i bp copied)) := by
  obtain ⟨r, hr⟩ : ∃ r, r = Sys.result strioc i bp copied := ⟨_, rfl⟩
  obtain ⟨t, ht⟩ : ∃ t, t = (s.freemsg bp).ret p r := ⟨_, rfl⟩
  obtain ⟨hpc, hb, hf, ha, htk, hI, hid⟩ : t.pc = update s.pc p (.ret r) ∧
      t.sd_iocblk = s.sd_iocblk ∧ t.freed = bp.addr :: s.freed ∧ t.arrived = s.arrived ∧
      t.taken = s.taken ∧ t.IOCWAIT = s.IOCWAIT ∧ t.sd_iocid = s.sd_iocid := by
    subst ht
    exact ⟨rfl, rfl, rfl, rfl, rfl, rfl, rfl⟩
  have hok : r.Ok := by
    have hid : bp.iocblk.ioc_id = i := by
      have hok := h.ok p
      rw [hp] at hok
      exact hok
    subst hr hid
    unfold Sys.result
    cases bp.db_type with
    | M_IOCACK =>
      dsimp only
      split_ifs <;> rfl
    | M_IOCNAK => rfl
  have hself : t.pc p = .ret r := by rw [hpc, update_self]
  have hother : ∀ q, q ≠ p → t.pc q = s.pc q := fun q hq => by rw [hpc, update_of_ne hq]
  rw [← hr, ← ht]
  refine h.quiet hI hid (hb ▸ h.slot) (fun q => ?_) (fun q => ?_) (fun hw q => ?_)
    (h.blocks.drop (p := p) (by rw [hp]; rfl) hb hf ha htk (by rw [hself]; rfl) fun q hq => by
      rw [hother q hq])
  · rcases eq_or_ne q p with rfl | hq
    · rw [hself, hp]
      rfl
    · rw [hother q hq]
  · rcases eq_or_ne q p with rfl | hq
    · rw [hself]
      exact hok
    · rw [hother q hq]
      exact h.ok q
  · rcases eq_or_ne q p with rfl | hq
    · rw [hself]
      rfl
    · rw [hother q hq]
      exact h.turn hw q

/-- A reply arrives. -/
theorem Inv.strrput (db_type : MsgType) (iocblk : Iocblk) :
    Inv (s.strrput db_type iocblk) := by
  unfold Sys.strrput
  dsimp only
  split
  · refine h.quiet rfl rfl h.slot (fun _ => rfl) h.ok h.turn ?_
    exact @Blocks.arrive _ _ ⟨s.arrived, db_type, iocblk⟩ h.blocks rfl rfl rfl (fun _ => rfl)
      (.inl ⟨rfl, rfl⟩)
  next hno =>
    simp only [not_or, Bool.not_eq_false, Bool.not_eq_true, isSome_eq_false_iff,
      isNone_iff_eq_none, not_not] at hno
    obtain ⟨hI, hb, hid⟩ := hno
    refine h.quiet rfl rfl (fun bp hbp => ?_) (fun q => own_wake2 _) (fun q => (ok_wake2 _).mpr (h.ok q))
      (fun hw q => ?_) ?_
    · cases hbp
      exact ⟨hI, hid.symm⟩
    · exact (asleep1_wake2 _).trans (h.turn hw q)
    · exact @Blocks.arrive _ _ ⟨s.arrived, db_type, iocblk⟩ h.blocks rfl rfl rfl
        (fun q => block_wake2 _) (.inr ⟨rfl, hb, rfl⟩)

end

end parts

/-! ## Runs -/

section run

variable {s t : Sys} {es : List Event} {e : Event}

theorem inv_start (strmsgsz : ℤ) : Inv (Sys.start strmsgsz) := by
  refine ⟨⟨fun h => (nomatch h), fun ⟨_, h⟩ => nomatch h⟩, fun _ _ h => (nomatch h),
    fun _ _ h => (nomatch h), fun _ h => (nomatch h), fun _ _ => rfl, fun _ => trivial, ?_⟩
  refine ⟨fun _ h => (nomatch h), fun b x h => ?_, nodup_nil, nodup_nil,
    fun _ h => nomatch h⟩
  cases x <;> exact nomatch h

/-- One turn. -/
theorem Inv.step (h : Inv s) (hs : s.step e = some t) : Inv t := by
  cases e with
  | call p strioc =>
    have hbegin : ∀ u, (s.pc p).own = none → (s.pc p).block = none →
        (if strioc.ic_len < 0 ∨ strioc.ic_len > s.strmsgsz then
          some (s.ret p ⟨EINVAL, 0, strioc.ic_len, none, .refused⟩)
        else some { s with pc := update s.pc p (.entry strioc) }) = some u → Inv u := by
      intro u hown hblock hu
      split at hu <;> cases hu
      · exact h.ret hown hblock rfl
      · exact h.goes ⟨rfl, rfl, rfl, rfl, rfl, rfl⟩ rfl hown.symm hblock.symm trivial fun _ => rfl
    cases hp : s.pc p <;> rw [hp] at hbegin <;> simp only [Sys.step, hp] at hs <;>
      first | exact hbegin t rfl rfl hs | cases hs
  | fail p fault =>
    cases hp : s.pc p <;> simp only [Sys.step, hp] at hs <;> cases hs
    refine h.ret (by rw [hp]; rfl) (by rw [hp]; rfl) ?_
    cases fault <;> rfl
  | enter p =>
    cases hp : s.pc p <;> simp only [Sys.step, hp] at hs <;> cases hs
    exact h.enter (by rw [hp]; rfl) (by rw [hp]; rfl)
  | run p intr =>
    cases hp : s.pc p with
    | wait strioc asleep id =>
      simp only [Sys.step, hp] at hs
      obtain ⟨-, hs⟩ := ite_none_left_eq_some.mp hs
      cases hs
      exact h.wake1 (by rw [hp]; rfl) (by rw [hp]; rfl) id intr
    | reply strioc asleep id ioc_id =>
      simp only [Sys.step, hp] at hs
      obtain ⟨-, hs⟩ := ite_none_left_eq_some.mp hs
      cases hs
      exact h.wake2 (by rw [hp]; rfl) id intr
    | _ =>
      simp only [Sys.step, hp] at hs
      cases hs
  | await p =>
    cases hp : s.pc p <;> simp only [Sys.step, hp] at hs <;> cases hs
    exact h.await (by rw [hp]; rfl)
  | finish p copied =>
    cases hp : s.pc p <;> simp only [Sys.step, hp] at hs <;> cases hs
    exact h.finish hp copied
  | strrput db_type iocblk =>
    obtain ⟨-, hs⟩ := ite_none_left_eq_some.mp hs
    cases hs
    exact h.strrput db_type iocblk
  | error n =>
    obtain ⟨-, hs⟩ := ite_none_left_eq_some.mp hs
    split at hs <;> cases hs
    · exact h
    · exact h.wakes ⟨rfl, rfl, rfl, rfl, rfl, rfl⟩ (.inr (.inr rfl))
  | hangup =>
    obtain ⟨-, hs⟩ := ite_none_left_eq_some.mp hs
    cases hs
    exact h.wakes ⟨rfl, rfl, rfl, rfl, rfl, rfl⟩ (.inr (.inr rfl))
  | link =>
    cases hs
    exact h.wakes ⟨rfl, rfl, rfl, rfl, rfl, rfl⟩ (.inr (.inr rfl))
  | unlink =>
    cases hs
    exact h.wakes ⟨rfl, rfl, rfl, rfl, rfl, rfl⟩ (.inl rfl)
  | clearErr =>
    cases hs
    exact h.wakes ⟨rfl, rfl, rfl, rfl, rfl, rfl⟩ (.inl rfl)
  | clock id =>
    simp only [Sys.step] at hs
    have h := h.untimeout id
    split at hs <;> cases hs
    · unfold Sys.str2time
      split
      · exact h.wakes ⟨rfl, rfl, rfl, rfl, rfl, rfl⟩ (.inr (.inl rfl))
      · exact h
    · unfold Sys.str3time
      split
      · exact h.wakes ⟨rfl, rfl, rfl, rfl, rfl, rfl⟩ (.inr (.inr rfl))
      · exact h
  | other =>
    cases hs
    exact h.wakes ⟨rfl, rfl, rfl, rfl, rfl, rfl⟩ (.inl rfl)

/-- What users of the stream rely on: one outstanding ioctl at a time, each with its own reply, no
reply lost or freed twice, and nobody asleep for a turn that is free. -/
structure Separate (s : Sys) : Prop where
  one : ∀ p q, (s.pc p).own.isSome = true → (s.pc q).own.isSome = true → p = q
  iocwait : s.IOCWAIT = true ↔ ∃ p, (s.pc p).own.isSome = true
  reply : ∀ p r, s.pc p = .ret r → r.how = .refused ∧ r.ioc_id = none ∨
    r.how = .timeout ∧ r.u_error = ETIME ∨ r.how = .signal ∧ r.u_error = EINTR ∨
    r.how = .stream ∨ ∃ bp, r.how = .reply bp ∧ r.ioc_id = some bp.iocblk.ioc_id
  place : ∀ b < s.arrived, ∃! x, At s b x
  freed : s.freed.Nodup
  taken : (s.taken.map Prod.fst).Nodup
  turn : s.IOCWAIT = false → ∀ p, (s.pc p).asleep1 = false

theorem Inv.separate (h : Inv s) : Separate s := by
  refine ⟨h.one, h.iocwait, fun p r hp => ?_, h.blocks.place, h.blocks.freed, h.blocks.taken, h.turn⟩
  have hok : r.Ok := by
    have hok := h.ok p
    rw [hp] at hok
    exact hok
  unfold Ret.Ok at hok
  cases hh : r.how <;> rw [hh] at hok
  · exact .inl ⟨rfl, hok⟩
  · exact .inr (.inl ⟨rfl, hok⟩)
  · exact .inr (.inr (.inl ⟨rfl, hok⟩))
  · exact .inr (.inr (.inr (.inl rfl)))
  · exact .inr (.inr (.inr (.inr ⟨_, rfl, hok⟩)))

/-- **Stream ioctls do not mix**, whatever the order of processes, replies, signals, errors and
timeouts. -/
theorem ioctl_run (strmsgsz : ℤ) (h : exec Sys.step (Sys.start strmsgsz) es = some t) :
    Separate t :=
  (exec_invariant' (fun _ _ _ h hs => Inv.step h hs) (inv_start strmsgsz) h).separate

end run

/-- Two processes: the first one's request times out, its reply comes late, and the second one gets
its own. -/
def mixed : List Event :=
  [.call 1 ⟨5, 0, 0⟩, .enter 1, .await 1, .call 2 ⟨6, -1, 0⟩, .enter 2, .clock 1, .run 1 false,
    .run 2 false, .strrput .M_IOCACK ⟨5, 1, 0, 0, 0⟩, .strrput .M_IOCACK ⟨6, 2, 0, 0, 7⟩,
    .strrput .M_IOCACK ⟨6, 2, 0, 0, 7⟩, .await 2, .finish 2 true]

theorem mixed_run : ∃ t, exec Sys.step (Sys.start 4096) mixed = some t ∧
    (t.pc 1 = .ret ⟨ETIME, 0, 0, some 1, .timeout⟩ ∧
      t.pc 2 = .ret ⟨0, 7, 0, some 2, .reply ⟨1, .M_IOCACK, ⟨6, 2, 0, 0, 7⟩⟩⟩) ∧ Separate t := by
  have hrun : (exec Sys.step (Sys.start 4096) mixed).any (fun t =>
      decide (t.pc 1 = .ret ⟨ETIME, 0, 0, some 1, .timeout⟩ ∧
        t.pc 2 = .ret ⟨0, 7, 0, some 2, .reply ⟨1, .M_IOCACK, ⟨6, 2, 0, 0, 7⟩⟩⟩)) = true := by
    decide +kernel
  obtain ⟨t, ht, hd⟩ := (any_eq_true _ _).mp hrun
  exact ⟨t, ht, of_decide_eq_true hd, ioctl_run 4096 ht⟩

/-- **A call that is refused.**  With a length below 0 the call returns without a reply, and with
none of the three errors: the stream is neither linked nor has it failed. -/
theorem refused_run : ∃ t r, exec Sys.step (Sys.start 4096) [.call 1 ⟨5, 0, -1⟩] = some t ∧
    t.pc 1 = .ret r ∧ r.u_error = EINVAL ∧ (r.u_error ≠ ETIME ∧ r.u_error ≠ EINTR) ∧
    (t.STRHUP = false ∧ t.STRERR = false ∧ t.STPLEX = false) ∧ r.how = .refused ∧
    t.arrived = 0 :=
  ⟨_, _, rfl, rfl, rfl, by decide, ⟨rfl, rfl, rfl⟩, rfl, rfl⟩

end Io.Ioc
