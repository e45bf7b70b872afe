import OpusSysV.Lib.Circular
import OpusSysV.Libc.Malloc

/-!
# The queues of holding blocks

For each size the holding blocks are linked in a circle, and `holdhead` names the first.

* `Queued` — the queue of a size, from its first holding block on.
* `Queued.took`, `Queued.newHold`, `Queued.moveFront` — what `malloc` and `free` do to it: a full
  holding block goes to the end, a new one and one with a freed little block to the front.
-/

namespace Libc

open Lib Function List

variable {o : Mallopt} {s t : Mall} {h i a b v x old : ℕ} {L l₁ l₂ : List ℕ}

/-- The fields of a holding block that are not links of the queue. -/
def Holdblk.core (y : Holdblk) : ℕ × ℕ × ℕ := (y.lfreeq, y.unused, y.blksz)

def nextOf (s : Mall) (x : ℕ) : Option ℕ := some (s.hold x).nexthblk

def prevOf (s : Mall) (x : ℕ) : Option ℕ := some (s.hold x).prevhblk

/-- The queue of a size. -/
def Queued (s : Mall) (i : ℕ) : List ℕ → Prop
  | [] => s.holdhead i = GROUND
  | h :: l => s.holdhead i = h ∧ Circ (nextOf s) (prevOf s) h l

/-! ## Assignments to links -/

namespace Mall

theorem nextOf_setNext : nextOf (s.setHold a fun x => { x with nexthblk := v }) =
    update (nextOf s) a (some v) := by
  funext y
  by_cases hy : y = a
  · subst hy
    simp [nextOf, setHold]
  · simp [nextOf, setHold, hy]

theorem prevOf_setPrev : prevOf (s.setHold a fun x => { x with prevhblk := v }) =
    update (prevOf s) a (some v) := by
  funext y
  by_cases hy : y = a
  · subst hy
    simp [prevOf, setHold]
  · simp [prevOf, setHold, hy]

/-- What an assignment to one holding block leaves alone. -/
theorem view_setHold {β : Type*} (f : Holdblk → β) {g : Holdblk → Holdblk}
    (hg : f (g (s.hold a)) = f (s.hold a)) : f ((s.setHold a g).hold x) = f (s.hold x) := by
  by_cases hx : x = a
  · subst hx
    simp [setHold, hg]
  · simp [setHold, hx]

theorem nextOf_setPrev : nextOf (s.setHold a fun x => { x with prevhblk := v }) = nextOf s :=
  funext fun _ => congrArg some (view_setHold Holdblk.nexthblk rfl)

theorem prevOf_setNext : prevOf (s.setHold a fun x => { x with nexthblk := v }) = prevOf s :=
  funext fun _ => congrArg some (view_setHold Holdblk.prevhblk rfl)

theorem nextOf_inj (hn : nextOf s a = some v) : (s.hold a).nexthblk = v := Option.some.inj hn

theorem prevOf_inj (hp : prevOf s a = some v) : (s.hold a).prevhblk = v := Option.some.inj hp

theorem takeOut_links (hne : (s.hold h).nexthblk ≠ h) :
    nextOf (s.takeOut h) =
      update (nextOf s) (s.hold h).prevhblk (some (s.hold h).nexthblk) ∧
    prevOf (s.takeOut h) =
      update (prevOf s) (s.hold h).nexthblk (some (s.hold h).prevhblk) := by
  obtain ⟨u, hu⟩ : ∃ u, u = s.setHold (s.hold h).nexthblk fun x =>
      { x with prevhblk := (s.hold h).prevhblk } := ⟨_, rfl⟩
  have hnext : nextOf u = nextOf s := by rw [hu, nextOf_setPrev]
  have hprev : prevOf u =
      update (prevOf s) (s.hold h).nexthblk (some (s.hold h).prevhblk) := by
    rw [hu, prevOf_setPrev]
  have hn : (u.hold h).nexthblk = (s.hold h).nexthblk := nextOf_inj (congrFun hnext h)
  have hp : (u.hold h).prevhblk = (s.hold h).prevhblk := by
    refine prevOf_inj ?_
    rw [hprev, update_of_ne hne.symm]
    rfl
  unfold takeOut
  dsimp only
  rw [← hu, nextOf_setNext, prevOf_setNext, hnext, hprev, hn, hp]
  exact ⟨rfl, rfl⟩

theorem addFront_links (hne : old ≠ h) :
    nextOf (s.addFront old h) = update (update (nextOf s) h (some old))
      (s.hold old).prevhblk (some h) ∧
    prevOf (s.addFront old h) = update
      (update (prevOf s) h (some (s.hold old).prevhblk)) old (some h) := by
  obtain ⟨u, hu⟩ : ∃ u, u = s.setHold h fun x => { x with nexthblk := old } := ⟨_, rfl⟩
  have hnext : nextOf u = update (nextOf s) h (some old) := by rw [hu, nextOf_setNext]
  have hprev : prevOf u = prevOf s := by rw [hu, prevOf_setNext]
  have hold : (u.hold old).prevhblk = (s.hold old).prevhblk := prevOf_inj (congrFun hprev old)
  obtain ⟨w, hw⟩ : ∃ w, w = (u.setHold h fun x =>
      { x with prevhblk := (u.hold old).prevhblk }).setHold old fun x =>
      { x with prevhblk := h } := ⟨_, rfl⟩
  have hnext' : nextOf w = nextOf u := by rw [hw, nextOf_setPrev, nextOf_setPrev]
  have hprev' : prevOf w = update
      (update (prevOf s) h (some (s.hold old).prevhblk)) old (some h) := by
    rw [hw, prevOf_setPrev, prevOf_setPrev, hprev, hold]
  have hq : (w.hold h).prevhblk = (s.hold old).prevhblk := by
    refine prevOf_inj ?_
    rw [hprev', update_of_ne hne.symm, update_self]
  unfold addFront
  dsimp only
  rw [← hu, ← hw, nextOf_setNext, prevOf_setNext, hq, hnext', hnext, hprev']
  exact ⟨rfl, rfl⟩

/-- What moving in the queue leaves alone in every holding block. -/
theorem view_takeOut {β : Type*} (f : Holdblk → β)
    (hn : ∀ y v, f { y with nexthblk := v } = f y) (hp : ∀ y v, f { y with prevhblk := v } = f y) :
    f ((s.takeOut h).hold x) = f (s.hold x) := by
  unfold takeOut
  exact (view_setHold f (hn _ _)).trans (view_setHold f (hp _ _))

theorem view_addFront {β : Type*} (f : Holdblk → β)
    (hn : ∀ y v, f { y with nexthblk := v } = f y) (hp : ∀ y v, f { y with prevhblk := v } = f y) :
    f ((s.addFront old h).hold x) = f (s.hold x) := by
  unfold addFront
  exact (view_setHold f (hn _ _)).trans <| (view_setHold f (hp _ _)).trans <|
    (view_setHold f (hp _ _)).trans (view_setHold f (hn _ _))

end Mall

/-! ## The queue after the operations -/

namespace Queued

theorem nodup (hq : Queued s i L) : L.Nodup := by
  cases L with
  | nil => exact nodup_nil
  | cons h l => exact hq.2.nodup

theorem congr (hq : Queued s i L) (hh : t.holdhead i = s.holdhead i)
    (hn : ∀ x ∈ L, nextOf t x = nextOf s x) (hp : ∀ x ∈ L, prevOf t x = prevOf s x) :
    Queued t i L := by
  cases L with
  | nil => exact hh.trans hq
  | cons h l => exact ⟨hh.trans hq.1, hq.2.congr hn hp⟩

/-- The first holding block stays in front, or goes to the end. -/
theorem rotate (hq : Queued s i (h :: L)) (hn : nextOf t = nextOf s) (hp : prevOf t = prevOf s)
    (hh : t.holdhead i = (s.hold h).nexthblk) : Queued t i (L ++ [h]) := by
  have hhead := hq.2.fwd.head
  cases L with
  | nil =>
    refine ⟨hh.trans (Option.some.inj hhead), ?_⟩
    rw [hn, hp]
    exact hq.2
  | cons a l =>
    refine ⟨hh.trans (Option.some.inj hhead), ?_⟩
    rw [hn, hp]
    exact hq.2.rotate

end Queued

/-- A holding block that was not in the queue is put in front. -/
theorem queued_front (hc : Circ (nextOf s) (prevOf s) old L) (hh : h ∉ old :: L)
    (hhead : t.holdhead i = h) (hn : nextOf t = nextOf (s.addFront old h))
    (hp : prevOf t = prevOf (s.addFront old h)) : Queued t i (h :: old :: L) := by
  have hne : old ≠ h := fun he => hh (he ▸ mem_cons_self)
  have hs := hc.snoc hh (p := (s.hold old).prevhblk) rfl
  rw [← (Mall.addFront_links hne).1, ← (Mall.addFront_links hne).2, ← hn, ← hp] at hs
  exact ⟨hhead, hs.rotate_back⟩

/-- Which links that changes. -/
theorem addFront_links_of_notMem (hc : Circ (nextOf s) (prevOf s) old L) (hne : old ≠ h)
    (hx : x ∉ old :: L) (hxh : x ≠ h) :
    nextOf (s.addFront old h) x = nextOf s x ∧ prevOf (s.addFront old h) x = prevOf s x := by
  have hp : (s.hold old).prevhblk ∈ old :: L := by
    have h1 := Option.some.inj hc.bwd.head
    rw [h1]
    cases hL : L.reverse with
    | nil => exact mem_cons_self
    | cons y l =>
      refine mem_cons_of_mem _ (mem_reverse.mp ?_)
      rw [hL]
      exact mem_cons_self
  have hxp : x ≠ (s.hold old).prevhblk := fun he => hx (he ▸ hp)
  have hxo : x ≠ old := fun he => hx (he ▸ mem_cons_self)
  rw [(Mall.addFront_links hne).1, (Mall.addFront_links hne).2]
  rw [update_of_ne hxp, update_of_ne hxh, update_of_ne hxo,
    update_of_ne hxh]
  exact ⟨rfl, rfl⟩

/-- The holding block `h` is now in front of its queue, of which `L` is the rest. -/
structure Fronted (s t : Mall) (i h : ℕ) (L : List ℕ) : Prop where
  change : t.change = s.change
  head : t.holdhead = update s.holdhead i h
  core : ∀ x, x ≠ h → (t.hold x).core = (s.hold x).core
  queued : Queued t i (h :: L)
  links : ∀ x, x ∉ h :: L → nextOf t x = nextOf s x ∧ prevOf t x = prevOf s x

/-- **A new holding block** comes to the front of its queue. -/
theorem Queued.newHold (hq : Queued s i L) (hnew : h ∉ L) (hL : ∀ x ∈ L, x ≠ GROUND) :
    Fronted s (s.newHold o i h).2 i h L ∧
      (s.newHold o i h).2.header = update s.header (h + SPACE) (SETALL h) ∧
      ((s.newHold o i h).2.hold h).core =
        (h + SPACE + o.size i, h + SPACE + o.size i, o.size i - MINHEAD) := by
  unfold Mall.newHold
  dsimp only
  obtain ⟨u, hu⟩ : ∃ u, u = if s.holdhead i ≠ GROUND then s.addFront (s.holdhead i) h
      else s.setHold h fun x => { x with nexthblk := h, prevhblk := h } := ⟨_, rfl⟩
  rw [← hu]
  have hu' : u.change = s.change ∧ u.holdhead = s.holdhead ∧ u.header = s.header := by
    rw [hu]
    split_ifs <;> exact ⟨rfl, rfl, rfl⟩
  have hucore : ∀ x, (u.hold x).core = (s.hold x).core := by
    intro x
    rw [hu]
    split_ifs
    · exact Mall.view_addFront Holdblk.core (fun _ _ => rfl) fun _ _ => rfl
    · exact Mall.view_setHold Holdblk.core rfl
  obtain ⟨t, ht⟩ : ∃ t, t = (((u.setHead i h).setHold h fun x => { x with
      lfreeq := h + SPACE + o.size i, unused := h + SPACE + o.size i,
      blksz := o.size i - MINHEAD }).setHeader (h + SPACE) (SETALL h)) := ⟨_, rfl⟩
  rw [← ht]
  have hself : t.hold h = { u.hold h with
      lfreeq := h + SPACE + o.size i, unused := h + SPACE + o.size i,
      blksz := o.size i - MINHEAD } := by
    rw [ht]
    exact update_self _ _ _
  have hothers : ∀ x, x ≠ h → t.hold x = u.hold x := by
    intro x hx
    rw [ht]
    exact update_of_ne hx _ _
  have hlinks : nextOf t = nextOf u ∧ prevOf t = prevOf u := by
    constructor
    · funext x
      by_cases hx : x = h
      · unfold nextOf
        rw [hx, hself]
      · unfold nextOf
        rw [hothers x hx]
    · funext x
      by_cases hx : x = h
      · unfold prevOf
        rw [hx, hself]
      · unfold prevOf
        rw [hothers x hx]
  have hhead : t.holdhead = update s.holdhead i h := by
    rw [ht, ← hu'.2.1]
    rfl
  have hheadi : t.holdhead i = h := by rw [hhead, update_self]
  refine ⟨⟨?_, hhead, fun x hx => (congrArg Holdblk.core (hothers x hx)).trans (hucore x), ?_,
    fun x hx => ?_⟩, ?_, by rw [hself]; rfl⟩
  · rw [ht]
    exact hu'.1
  · cases L with
    | nil =>
      rw [if_neg (fun hne => hne hq)] at hu
      have huh : u.hold h = { s.hold h with nexthblk := h, prevhblk := h } := by
        rw [hu]
        exact update_self _ _ _
      refine ⟨hheadi, circ_nil ?_ ?_⟩
      · rw [hlinks.1]
        unfold nextOf
        rw [huh]
      · rw [hlinks.2]
        unfold prevOf
        rw [huh]
    | cons old l =>
      rw [hq.1, if_pos (hL old mem_cons_self)] at hu
      refine queued_front hq.2 hnew hheadi ?_ ?_
      · rw [hlinks.1, hu]
      · rw [hlinks.2, hu]
  · rw [mem_cons, not_or] at hx
    rw [hlinks.1, hlinks.2]
    cases L with
    | nil =>
      rw [if_neg (fun hne => hne hq)] at hu
      have hsame : u.hold x = s.hold x := by
        rw [hu]
        exact update_of_ne hx.1 _ _
      unfold nextOf prevOf
      rw [hsame]
      exact ⟨rfl, rfl⟩
    | cons old l =>
      rw [hq.1, if_pos (hL old mem_cons_self)] at hu
      have hne : old ≠ h := fun he => hnew (he ▸ mem_cons_self)
      rw [hu]
      exact addFront_links_of_notMem hq.2 hne hx.2 hx.1
  · rw [ht, ← hu'.2.2]
    rfl

/-- **A holding block with a freed little block** comes to the front of its queue. -/
theorem Queued.moveFront (hq : Queued s i (l₁ ++ h :: l₂))
    (hi : (s.hold h).blksz / o.grain = i) :
    Fronted s (s.moveFront o h) i h (l₁ ++ l₂) ∧ (s.moveFront o h).header = s.header ∧
      ((s.moveFront o h).hold h).core = (s.hold h).core := by
  unfold Mall.moveFront
  dsimp only
  rw [hi]
  cases l₁ with
  | nil =>
    have hh : s.holdhead i = h := hq.1
    rw [if_neg (fun hne => hne hh)]
    refine ⟨⟨rfl, ?_, fun _ _ => rfl, hq, fun _ _ => ⟨rfl, rfl⟩⟩, rfl, rfl⟩
    rw [← hh, update_eq_self]
  | cons old l₁ =>
    have hh : s.holdhead i = old := hq.1
    have hnd : (old :: (l₁ ++ h :: l₂)).Nodup := hq.2.nodup
    have hmid := nodup_middle.mp (nodup_cons.mp hnd).2
    have hne : old ≠ h := by
      rintro rfl
      exact (nodup_cons.mp hnd).1 (mem_append_right l₁ mem_cons_self)
    have hnext : (s.hold h).nexthblk ≠ h := by
      rw [Option.some.inj hq.2.next_eq]
      cases l₂ with
      | nil => exact hne
      | cons y l =>
        rintro rfl
        exact (nodup_cons.mp hmid).1 (mem_append_right l₁ mem_cons_self)
    rw [hh, if_pos hne]
    obtain ⟨w, hw⟩ : ∃ w, w = (s.setHead i h).takeOut h := ⟨_, rfl⟩
    have hout := Mall.takeOut_links (s := s.setHead i h) hnext
    rw [← hw] at hout ⊢
    have hcirc : Circ (nextOf w) (prevOf w) old (l₁ ++ l₂) := by
      rw [hout.1, hout.2]
      exact hq.2.remove rfl rfl
    have hnot : h ∉ old :: (l₁ ++ l₂) := by
      rw [mem_cons, not_or]
      exact ⟨hne.symm, (nodup_cons.mp hmid).1⟩
    have hcore : ∀ x, ((w.addFront old h).hold x).core = (s.hold x).core := by
      intro x
      rw [Mall.view_addFront Holdblk.core (fun _ _ => rfl) fun _ _ => rfl, hw]
      exact Mall.view_takeOut Holdblk.core (fun _ _ => rfl) fun _ _ => rfl
    refine ⟨⟨by rw [hw]; rfl, by rw [hw]; rfl, fun x _ => hcore x, ?_, fun x hx => ?_⟩,
      by rw [hw]; rfl, hcore h⟩
    · refine queued_front hcirc hnot ?_ rfl rfl
      rw [hw]
      exact update_self _ _ _
    · rw [mem_cons, not_or] at hx
      have hp : (s.hold h).prevhblk ∈ old :: (l₁ ++ l₂) := by
        rw [Option.some.inj hq.2.prev_eq]
        rcases mem_cons.mp (mem_getLastD (a := old) (l := l₁)) with he | hm
        · rw [he]
          exact mem_cons_self
        · exact mem_cons_of_mem _ (mem_append_left _ hm)
      have hn : (s.hold h).nexthblk ∈ old :: (l₁ ++ l₂) := by
        rw [Option.some.inj hq.2.next_eq]
        cases l₂ with
        | nil => exact mem_cons_self
        | cons y l => exact mem_cons_of_mem _ (mem_append_right _ mem_cons_self)
      have hxp : x ≠ (s.hold h).prevhblk := fun he => hx.2 (he ▸ hp)
      have hxn : x ≠ (s.hold h).nexthblk := fun he => hx.2 (he ▸ hn)
      have hfront := addFront_links_of_notMem hcirc hne hx.2 hx.1
      rw [hfront.1, hfront.2, hout.1, hout.2]
      exact ⟨update_of_ne hxp _ _, update_of_ne hxn _ _⟩

end Libc
