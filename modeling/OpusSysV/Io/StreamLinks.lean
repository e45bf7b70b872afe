import OpusSysV.Io.Stream
import OpusSysV.Lib.Linked
import OpusSysV.Lib.Run

/-!
# The message list of a queue: `io/stream.c` with its pointers

`Stream` has the messages of a queue as a list.  Here they are message blocks that name
each other by `b_next` and `b_prev`, between `q_first` and `q_last`; the routines store
into these fields in the order of the source, and `none` is a null pointer that was
followed or a loop that does not end.

* `Links.putq`, `Links.putbq`, `Links.getq`, `Links.rmvq`, `Links.flushq` — the routines.
* `ByClass` — what a queue is for: the messages of the two classes in their order.
* `Links.step_refines`, `message_order` — after every sequence of calls the linked list is
  that of the classes, the higher one first.
* `putqPlace_links`, `putbqPlace_links` — the places that `Stream` gives to a message.
-/

namespace Io

open Lib Function List

/-! ## The routines -/

/-- The message blocks of the pool, the head of one queue, and what the routines read of a
message: its `db_type`, an `unsigned char` that stays while the message is queued. -/
structure Links (n : ℕ) where
  qFirst : Option (Fin n)
  qLast : Option (Fin n)
  bNext : Fin n → Option (Fin n)
  bPrev : Fin n → Option (Fin n)
  dbType : Fin n → UInt8

namespace Links

variable {n : ℕ}

/-- `bp->b_next = v`. -/
def setNext (s : Links n) (bp : Fin n) (v : Option (Fin n)) : Links n :=
  { s with bNext := update s.bNext bp v }

/-- `bp->b_prev = v`. -/
def setPrev (s : Links n) (bp : Fin n) (v : Option (Fin n)) : Links n :=
  { s with bPrev := update s.bPrev bp v }

/-- `queclass(bp)`. -/
def queclass (s : Links n) (bp : Fin n) : UInt8 := s.dbType bp &&& 0o200

/-- `while (queclass(nbp) >= mcls) nbp = nbp->b_next;` -/
def search (s : Links n) (mcls : UInt8) : ℕ → Option (Fin n) → Option (Fin n)
  | _, none => none
  | 0, some _ => none
  | k + 1, some nbp => if s.queclass nbp ≥ mcls then search s mcls k (s.bNext nbp) else some nbp

/-- `while ((nbp->b_next) && (queclass(nbp->b_next) > mcls)) nbp = nbp->b_next;` -/
def searchBack (s : Links n) (mcls : UInt8) : ℕ → Fin n → Option (Fin n)
  | 0, _ => none
  | k + 1, nbp =>
    match s.bNext nbp with
    | none => some nbp
    | some e => if s.queclass e > mcls then searchBack s mcls k e else some nbp

/-- The links that `putq(q, bp)` stores. -/
def putq (s : Links n) (bp : Fin n) : Option (Links n) :=
  match s.qFirst with
  | none => some { (s.setPrev bp none).setNext bp none with qFirst := some bp, qLast := some bp }
  | some first =>
    match s.qLast with
    | none => none
    | some last =>
      if s.queclass bp ≤ s.queclass last then
        some { ((s.setNext last bp).setPrev bp last).setNext bp none with qLast := some bp }
      else
        match s.search (s.queclass bp) n (some first) with
        | none => none
        | some nbp =>
          let s := (s.setNext bp nbp).setPrev bp (s.bPrev nbp)
          match s.bPrev nbp with
          | some before => some ((s.setNext before bp).setPrev nbp bp)
          | none => some ({ s with qFirst := some bp }.setPrev nbp bp)

/-- The links that `putbq(q, bp)` stores. -/
def putbq (s : Links n) (bp : Fin n) : Option (Links n) :=
  match s.qFirst with
  | none => some { (s.setNext bp none).setPrev bp none with qLast := some bp, qFirst := some bp }
  | some first =>
    if s.queclass bp ≥ s.queclass first then
      some { ((s.setNext bp first).setPrev bp none).setPrev first bp with qFirst := some bp }
    else
      match s.searchBack (s.queclass bp) n first with
      | none => none
      | some nbp =>
        let s := s.setNext bp (s.bNext nbp)
        match s.bNext bp with
        | some behind => some (((s.setPrev behind bp).setNext nbp bp).setPrev bp nbp)
        | none => some (({ s with qLast := some bp }.setNext nbp bp).setPrev bp nbp)

/-- The message that `getq(q)` takes off, and the links. -/
def getq (s : Links n) : Option (Fin n) × Links n :=
  match s.qFirst with
  | none => (none, s)
  | some bp =>
    let s :=
      match s.bNext bp with
      | none => { s with qFirst := none, qLast := none }
      | some first => { s with qFirst := some first }.setPrev first none
    (some bp, (s.setPrev bp none).setNext bp none)

/-- The links that `rmvq(q, mp)` stores. -/
def rmvq (s : Links n) (mp : Fin n) : Links n :=
  let s :=
    match s.bPrev mp with
    | some before => s.setNext before (s.bNext mp)
    | none => { s with qFirst := s.bNext mp }
  let s :=
    match s.bNext mp with
    | some behind => s.setPrev behind (s.bPrev mp)
    | none => { s with qLast := s.bPrev mp }
  (s.setPrev mp none).setNext mp none

/-- `!flag && !datamsg(type)`: `flushq` puts the message back. -/
def kept (flag : Bool) (type : UInt8) : Bool := !flag && !datamsg type.toNat

/-- The loop of `flushq`; `freed` is what `freemsg` leaves in the `b_next` of a message. -/
def flushLoop (flag : Bool) (freed : Fin n → Option (Fin n)) :
    ℕ → Option (Fin n) → Links n → Option (Links n)
  | _, none, s => some s
  | 0, some _, _ => none
  | k + 1, some bp, s =>
    let nbp := s.bNext bp
    (if kept flag (s.dbType bp) then s.putq bp else some (s.setNext bp (freed bp))).bind
      (flushLoop flag freed k nbp)

/-- The links that `flushq(q, flag)` stores. -/
def flushq (s : Links n) (flag : Bool) (freed : Fin n → Option (Fin n)) : Option (Links n) :=
  flushLoop flag freed n s.qFirst { s with qFirst := none, qLast := none }

/-- The messages found from `q_first` on. -/
def queued (s : Links n) : List (Fin n) := walk s.bNext n s.qFirst

end Links

/-- The calls; `own` is whatever the owner of a message that is not queued does with it. -/
inductive LinkCall (n : ℕ)
  | putq (bp : Fin n)
  | putbq (bp : Fin n)
  | getq
  | rmvq (mp : Fin n)
  | flushq (flag : Bool) (freed : Fin n → Option (Fin n))
  | own (bp : Fin n) (next prev : Option (Fin n)) (type : UInt8)

namespace Links

variable {n : ℕ}

/-- A message that is put or written to is not queued, one that is removed is; `putbq` asserts
that `b_next` is null. -/
def Allowed (s : Links n) : LinkCall n → Prop
  | .putq bp => bp ∉ s.queued
  | .putbq bp => bp ∉ s.queued ∧ s.bNext bp = none
  | .getq => True
  | .rmvq mp => mp ∈ s.queued
  | .flushq _ _ => True
  | .own bp _ _ _ => bp ∉ s.queued

instance (s : Links n) (call : LinkCall n) : Decidable (s.Allowed call) := by
  cases call <;> unfold Allowed <;> infer_instance

/-- What a call does. -/
def perform (s : Links n) : LinkCall n → Option (Links n)
  | .putq bp => s.putq bp
  | .putbq bp => s.putbq bp
  | .getq => some s.getq.2
  | .rmvq mp => some (s.rmvq mp)
  | .flushq flag freed => s.flushq flag freed
  | .own bp next prev type =>
    some { (s.setNext bp next).setPrev bp prev with dbType := update s.dbType bp type }

/-- One call. -/
def step (s : Links n) (call : LinkCall n) : Option (Links n) :=
  if s.Allowed call then s.perform call else none

end Links

/-! ## The purpose -/

/-- The messages of a queue by class, in the order in which they will be taken off. -/
structure ByClass (n : ℕ) where
  pri : List (Fin n)
  norm : List (Fin n)
  dbType : Fin n → UInt8

namespace ByClass

variable {n : ℕ}

/-- The messages, those of type `QPCTL` and above first. -/
def all (a : ByClass n) : List (Fin n) := a.pri ++ a.norm

/-- A message arrives. -/
def putq (a : ByClass n) (bp : Fin n) : ByClass n :=
  if QPCTL ≤ (a.dbType bp).toNat then { a with pri := a.pri ++ [bp] }
  else { a with norm := a.norm ++ [bp] }

/-- A message comes back. -/
def putbq (a : ByClass n) (bp : Fin n) : ByClass n :=
  if QPCTL ≤ (a.dbType bp).toNat then { a with pri := bp :: a.pri }
  else { a with norm := bp :: a.norm }

/-- What a call means. -/
def step (a : ByClass n) : LinkCall n → ByClass n
  | .putq bp => a.putq bp
  | .putbq bp => a.putbq bp
  | .getq =>
    match a.pri with
    | [] => { a with norm := a.norm.tail }
    | _ :: pri => { a with pri := pri }
  | .rmvq mp => { a with pri := a.pri.erase mp, norm := a.norm.erase mp }
  | .flushq flag _ =>
    let left := List.filter fun bp => Links.kept flag (a.dbType bp)
    { a with pri := left a.pri, norm := left a.norm }
  | .own bp _ _ type => { a with dbType := update a.dbType bp type }

end ByClass

/-- The queue holds the messages of `a`: the links are those of a list linked both ways, no
message is on it twice, and each is in its class. -/
structure Holds {n : ℕ} (s : Links n) (a : ByClass n) : Prop where
  linked : Doubly s.bNext s.bPrev s.qFirst s.qLast a.all
  nodup : a.all.Nodup
  dbType_eq : a.dbType = s.dbType
  pri_ge : ∀ bp ∈ a.pri, QPCTL ≤ (s.dbType bp).toNat
  norm_lt : ∀ bp ∈ a.norm, (s.dbType bp).toNat < QPCTL

/-- A queue without messages, whatever is in the message blocks. -/
def Links.empty {n : ℕ} (bNext bPrev : Fin n → Option (Fin n)) (dbType : Fin n → UInt8) : Links n :=
  ⟨none, none, bNext, bPrev, dbType⟩

/-! ## What the routines store -/

section stores

variable {n k : ℕ} {s t : Links n} {a : ByClass n} {bp mp : Fin n} {l₁ l₂ r : List (Fin n)}
variable {mcls : UInt8} {f : Option (Fin n)}

theorem queclass_eq (s : Links n) (bp : Fin n) :
    s.queclass bp = if QPCTL ≤ (s.dbType bp).toNat then 0o200 else 0 := by
  have hall : ∀ t : Fin 256, (UInt8.ofNat t.val &&& 0o200) =
      if QPCTL ≤ t.val then (0o200 : UInt8) else 0 := by
    decide +kernel
  have h := hall ⟨(s.dbType bp).toNat, UInt8.toNat_lt _⟩
  rw [Links.queclass]
  simpa using h

theorem Links.search_spec {z : Fin n} (h : Linked s.bNext f (l₁ ++ z :: l₂))
    (hl : ∀ b ∈ l₁, s.queclass b ≥ mcls) (hz : ¬ s.queclass z ≥ mcls) (hk : l₁.length < k) :
    s.search mcls k f = some z := by
  induction l₁ generalizing f k with
  | nil =>
    obtain ⟨rfl, -⟩ := h
    obtain ⟨k, rfl⟩ : ∃ j, k = j + 1 := ⟨k - 1, by simp at hk; omega⟩
    rw [Links.search, if_neg hz]
  | cons b l ih =>
    obtain ⟨rfl, h⟩ := h
    obtain ⟨k, rfl⟩ : ∃ j, k = j + 1 := ⟨k - 1, by simp at hk; omega⟩
    rw [Links.search, if_pos (hl b mem_cons_self)]
    exact ih h (fun c hc => hl c (mem_cons_of_mem _ hc)) (by simpa using hk)

theorem Links.searchBack_spec {p : Fin n} (h : Linked s.bNext f (p :: l₁ ++ l₂))
    (hl : ∀ b ∈ l₁, s.queclass b > mcls) (hz : ∀ b, l₂.head? = some b → ¬ s.queclass b > mcls)
    (hk : l₁.length < k) : s.searchBack mcls k p = (p :: l₁).getLast? := by
  induction l₁ generalizing f k p with
  | nil =>
    obtain ⟨k, rfl⟩ : ∃ j, k = j + 1 := ⟨k - 1, by simp at hk; omega⟩
    have hnext : s.bNext p = l₂.head? := h.2.head?
    rw [Links.searchBack, hnext]
    cases hh : l₂.head? with
    | none => rfl
    | some e => exact if_neg (hz e hh)
  | cons b l ih =>
    obtain ⟨k, rfl⟩ : ∃ j, k = j + 1 := ⟨k - 1, by simp at hk; omega⟩
    obtain ⟨-, h⟩ := h
    have hnext : s.bNext p = some b := h.1
    rw [Links.searchBack, hnext]
    dsimp only
    rw [if_pos (hl b mem_cons_self), List.getLast?_cons_cons]
    exact ih h (fun c hc => hl c (mem_cons_of_mem _ hc)) (by simpa using hk)

/-- In `t`, message `bp` is stored between two parts of the queue, and nothing else is. -/
structure Stored (s t : Links n) (bp : Fin n) (l₁ l₂ : List (Fin n)) : Prop where
  first_eq : t.qFirst = l₁.head?.or (some bp)
  last_eq : t.qLast = l₂.getLast?.or (some bp)
  next_eq : ∀ b, t.bNext b =
    if l₁.getLast? = some b then some bp else if b = bp then l₂.head? else s.bNext b
  prev_eq : ∀ b, t.bPrev b =
    if l₂.head? = some b then some bp else if b = bp then l₁.getLast? else s.bPrev b
  dbType_eq : t.dbType = s.dbType

theorem Stored.doubly (ht : Stored s t bp l₁ l₂)
    (h : Doubly s.bNext s.bPrev s.qFirst s.qLast (l₁ ++ l₂))
    (hnd : (l₁ ++ l₂).Nodup) (hbp : bp ∉ l₁ ++ l₂) :
    Doubly t.bNext t.bPrev t.qFirst t.qLast (l₁ ++ bp :: l₂) := by
  have hne : ∀ b ∈ l₁ ++ l₂, b ≠ bp := fun b hb heq => hbp (heq ▸ hb)
  refine h.insert hnd ht.first_eq ht.last_eq ?_ ?_ ?_ ?_ ?_ ?_
  · rw [ht.next_eq, if_neg, if_pos rfl]
    exact fun heq => hbp (mem_append_left _ (mem_of_getLast? heq))
  · rw [ht.prev_eq, if_neg, if_pos rfl]
    exact fun heq => hbp (mem_append_right _ (mem_of_head? heq))
  · intro z hz
    rw [ht.next_eq, if_pos hz]
  · intro z hz
    rw [ht.prev_eq, if_pos hz]
  · intro b hb hlb
    rw [ht.next_eq, if_neg hlb, if_neg (hne b hb)]
  · intro b hb hlb
    rw [ht.prev_eq, if_neg hlb, if_neg (hne b hb)]

/-- The messages that are not queued keep their link. -/
theorem Stored.next_same (ht : Stored s t bp l₁ l₂) {b : Fin n} (hb : b ∉ l₁ ++ l₂)
    (hne : b ≠ bp) : t.bNext b = s.bNext b := by
  rw [ht.next_eq, if_neg, if_neg hne]
  exact fun heq => hb (mem_append_left _ (mem_of_getLast? heq))

/-- `putq` at the end of the queue. -/
theorem Links.putq_last (h : Doubly s.bNext s.bPrev s.qFirst s.qLast r) (hbp : bp ∉ r)
    (hcls : ∀ z, r.getLast? = some z → s.queclass bp ≤ s.queclass z) :
    ∃ t, s.putq bp = some t ∧ Stored s t bp r [] := by
  have hfirst := h.first_eq
  have hlast := h.last_eq
  unfold Links.putq
  rw [hfirst, hlast]
  cases hz : r.getLast? with
  | none =>
    obtain rfl : r = [] := List.getLast?_eq_none_iff.mp hz
    refine ⟨_, rfl, ⟨rfl, rfl, fun b => ?_, fun b => ?_, rfl⟩⟩
    · simp [setNext, setPrev, update_apply]
    · simp [setNext, setPrev, update_apply]
  | some z =>
    obtain ⟨x, hx⟩ : ∃ x, r.head? = some x := by
      cases r with
      | nil => cases hz
      | cons x r => exact ⟨x, rfl⟩
    have hne : z ≠ bp := fun heq => hbp (heq ▸ mem_of_getLast? hz)
    rw [hx]
    dsimp only
    rw [if_pos (hcls z hz)]
    refine ⟨_, rfl, ⟨?_, rfl, fun b => ?_, fun b => ?_, rfl⟩⟩
    · show s.qFirst = _
      rw [hfirst, hx]
      rfl
    · rw [hz]
      by_cases hb : b = bp
      · simp [setNext, setPrev, hb, hne]
      · simp [setNext, setPrev, update_apply, hb, eq_comm]
    · simp [setNext, setPrev, update_apply, hz]

/-- `putq` in front of the first message of a lower class. -/
theorem Links.putq_before {z : Fin n}
    (h : Doubly s.bNext s.bPrev s.qFirst s.qLast (l₁ ++ z :: l₂)) (hnd : (l₁ ++ z :: l₂).Nodup)
    (hbp : bp ∉ l₁ ++ z :: l₂) (hhigh : ∀ b ∈ l₁, s.queclass b ≥ s.queclass bp)
    (hlow : ∀ b ∈ z :: l₂, ¬ s.queclass b ≥ s.queclass bp) :
    ∃ t, s.putq bp = some t ∧ Stored s t bp l₁ (z :: l₂) := by
  have hfirst := h.first_eq
  obtain ⟨y, hy⟩ : ∃ y, (z :: l₂).getLast? = some y := by
    rw [List.getLast?_cons]
    exact ⟨_, rfl⟩
  obtain ⟨x, hx⟩ : ∃ x, (l₁ ++ z :: l₂).head? = some x := by
    cases l₁ with
    | nil => exact ⟨z, rfl⟩
    | cons x l => exact ⟨x, rfl⟩
  have hlast : s.qLast = some y := by
    rw [h.last_eq, List.getLast?_append, hy]
    rfl
  have hzbp : z ≠ bp := fun heq => hbp (by simp [heq])
  have hlen : l₁.length < n := by
    have := hnd.length_le_card
    simp at this
    omega
  have hsearch : s.search (s.queclass bp) n (some x) = some z := by
    rw [← hx, ← h.first_eq]
    exact Links.search_spec h.next_linked hhigh (hlow z mem_cons_self) hlen
  have hprev : s.bPrev z = l₁.getLast? := h.prev_eq
  unfold Links.putq
  rw [hfirst, hx, hlast]
  dsimp only
  rw [if_neg, hsearch]
  · dsimp only
    have hprev' : ((s.setNext bp (some z)).setPrev bp (s.bPrev z)).bPrev z = l₁.getLast? := by
      simp [setNext, setPrev, hzbp, hprev]
    rw [hprev']
    cases hl : l₁.getLast? with
    | none =>
      obtain rfl : l₁ = [] := List.getLast?_eq_none_iff.mp hl
      refine ⟨_, rfl, ⟨rfl, ?_, fun b => ?_, fun b => ?_, rfl⟩⟩
      · show s.qLast = _
        rw [hlast, hy]
        rfl
      · simp [setNext, setPrev, update_apply]
      · by_cases hb : b = z
        · simp [setNext, setPrev, hb]
        · simp [setNext, setPrev, update_apply, hb, Ne.symm hb, hprev]
    | some w =>
      refine ⟨_, rfl, ⟨?_, ?_, fun b => ?_, fun b => ?_, rfl⟩⟩
      · show s.qFirst = _
        rw [hfirst]
        cases l₁ with
        | nil => cases hl
        | cons x l => rfl
      · show s.qLast = _
        rw [hlast, hy]
        rfl
      · by_cases hb : b = w
        · simp [setNext, setPrev, hb, hl]
        · simp [setNext, setPrev, update_apply, hb, Ne.symm hb, hl]
      · by_cases hb : b = z
        · simp [setNext, setPrev, hb]
        · simp [setNext, setPrev, update_apply, hb, Ne.symm hb, hprev]
  · intro hle
    exact hlow y (mem_of_getLast? hy) hle

/-- `putbq` at the front of the queue. -/
theorem Links.putbq_first (h : Doubly s.bNext s.bPrev s.qFirst s.qLast r) (hbp : bp ∉ r)
    (hcls : ∀ z, r.head? = some z → s.queclass bp ≥ s.queclass z) :
    ∃ t, s.putbq bp = some t ∧ Stored s t bp [] r := by
  have hfirst := h.first_eq
  unfold Links.putbq
  rw [hfirst]
  cases hz : r.head? with
  | none =>
    obtain rfl : r = [] := List.head?_eq_none_iff.mp hz
    refine ⟨_, rfl, ⟨rfl, rfl, fun b => ?_, fun b => ?_, rfl⟩⟩
    · simp [setNext, setPrev, update_apply]
    · simp [setNext, setPrev, update_apply]
  | some z =>
    dsimp only
    rw [if_pos (hcls z hz)]
    refine ⟨_, rfl, ⟨rfl, ?_, fun b => ?_, fun b => ?_, rfl⟩⟩
    · show s.qLast = _
      rw [h.last_eq]
      cases r with
      | nil => cases hz
      | cons x r =>
        rw [List.getLast?_cons]
        rfl
    · simp [setNext, setPrev, update_apply, hz]
    · by_cases hb : b = z
      · simp [setNext, setPrev, hb, hz]
      · simp [setNext, setPrev, update_apply, hb, Ne.symm hb, hz]

/-- `putbq` behind the messages of a higher class. -/
theorem Links.putbq_behind {z : Fin n}
    (h : Doubly s.bNext s.bPrev s.qFirst s.qLast (z :: l₁ ++ l₂)) (hnd : (z :: l₁ ++ l₂).Nodup)
    (hbp : bp ∉ z :: l₁ ++ l₂) (hhigh : ∀ b ∈ z :: l₁, s.queclass b > s.queclass bp)
    (hlow : ∀ b ∈ l₂, ¬ s.queclass b > s.queclass bp) :
    ∃ t, s.putbq bp = some t ∧ Stored s t bp (z :: l₁) l₂ := by
  have hfirst : s.qFirst = some z := h.first_eq
  obtain ⟨y, hy⟩ : ∃ y, (z :: l₁).getLast? = some y := by
    rw [List.getLast?_cons]
    exact ⟨_, rfl⟩
  have hlen : l₁.length < n := by
    have := hnd.length_le_card
    simp at this
    omega
  have hsearch : s.searchBack (s.queclass bp) n z = some y := by
    rw [← hy]
    refine Links.searchBack_spec h.next_linked
      (fun b hb => hhigh b (mem_cons_of_mem _ hb)) (fun b hb => ?_) hlen
    exact hlow b (mem_of_head? hb)
  have hnext : s.bNext y = l₂.head? := by
    obtain ⟨l, hl⟩ := List.getLast?_eq_some_iff.mp hy
    have h' := h.next_linked
    rw [hl, append_assoc, singleton_append] at h'
    exact h'.next_eq
  unfold Links.putbq
  rw [hfirst]
  dsimp only
  rw [if_neg, hsearch]
  · dsimp only
    have hnext' : (s.setNext bp (s.bNext y)).bNext bp = l₂.head? := by
      simp [setNext, hnext]
    rw [hnext']
    cases hl : l₂.head? with
    | none =>
      obtain rfl : l₂ = [] := List.head?_eq_none_iff.mp hl
      refine ⟨_, rfl, ⟨hfirst, rfl, fun b => ?_, fun b => ?_, rfl⟩⟩
      · by_cases hb : b = y
        · simp [setNext, setPrev, hb, hy]
        · simp [setNext, setPrev, update_apply, hb, Ne.symm hb, hy, hnext]
      · simp [setNext, setPrev, update_apply, hy]
    | some w =>
      have hw : w ≠ bp := fun heq => hbp (by
        rw [← heq]
        exact mem_append_right _ (mem_of_head? hl))
      refine ⟨_, rfl, ⟨hfirst, ?_, fun b => ?_, fun b => ?_, rfl⟩⟩
      · show s.qLast = _
        rw [h.last_eq, List.getLast?_append]
        cases l₂ with
        | nil => cases hl
        | cons x l =>
          rw [List.getLast?_cons]
          rfl
      · by_cases hb : b = y
        · simp [setNext, setPrev, hb, hy]
        · simp [setNext, setPrev, update_apply, hb, Ne.symm hb, hy, hnext, hl]
      · by_cases hb : b = w
        · simp [setNext, setPrev, hb, hl, hw]
        · simp [setNext, setPrev, update_apply, hb, Ne.symm hb, hy, hl]
  · intro hge
    exact absurd (hhigh z mem_cons_self) (UInt8.not_lt.mpr hge)

/-- The fields after `rmvq`, of a message that is not its own neighbour. -/
structure Unlinked (s t : Links n) (mp : Fin n) : Prop where
  first_eq : t.qFirst = if s.bPrev mp = none then s.bNext mp else s.qFirst
  last_eq : t.qLast = if s.bNext mp = none then s.bPrev mp else s.qLast
  next_eq : ∀ b, b ≠ mp → t.bNext b = if s.bPrev mp = some b then s.bNext mp else s.bNext b
  prev_eq : ∀ b, b ≠ mp → t.bPrev b = if s.bNext mp = some b then s.bPrev mp else s.bPrev b
  dbType_eq : t.dbType = s.dbType

theorem Links.rmvq_unlinked (hp : s.bPrev mp ≠ some mp) :
    Unlinked s (s.rmvq mp) mp := by
  cases hbefore : s.bPrev mp with
  | none =>
    cases hbehind : s.bNext mp with
    | none =>
      have heq : s.rmvq mp =
          ({ s with qFirst := none, qLast := none }.setPrev mp none).setNext mp none := by
        simp [Links.rmvq, hbefore, hbehind, setNext, setPrev]
      rw [heq]
      refine ⟨?_, ?_, fun b hb => ?_, fun b hb => ?_, rfl⟩
      · simp [setNext, setPrev, hbefore, hbehind]
      · simp [setNext, setPrev, hbefore, hbehind]
      · simp [setNext, setPrev, hb, hbefore]
      · simp [setNext, setPrev, hb, hbehind]
    | some w =>
      have heq : s.rmvq mp =
          (({ s with qFirst := some w }.setPrev w none).setPrev mp none).setNext mp none := by
        simp [Links.rmvq, hbefore, hbehind, setNext, setPrev]
      rw [heq]
      refine ⟨?_, ?_, fun b hb => ?_, fun b hb => ?_, rfl⟩
      · simp [setNext, setPrev, hbefore, hbehind]
      · simp [setNext, setPrev, hbehind]
      · simp [setNext, setPrev, hb, hbefore]
      · simp [setNext, setPrev, update_apply, hb, hbefore, hbehind, eq_comm (a := w)]
  | some z =>
    have hz : mp ≠ z := fun heq => hp (by rw [hbefore, heq])
    cases hbehind : s.bNext mp with
    | none =>
      have heq : s.rmvq mp =
          ({ s.setNext z none with qLast := some z }.setPrev mp none).setNext mp none := by
        simp [Links.rmvq, hbefore, hbehind, setNext, setPrev, hz]
      rw [heq]
      refine ⟨?_, ?_, fun b hb => ?_, fun b hb => ?_, rfl⟩
      · simp [setNext, setPrev, hbefore]
      · simp [setNext, setPrev, hbefore, hbehind]
      · simp [setNext, setPrev, update_apply, hb, hbefore, hbehind, eq_comm (a := z)]
      · simp [setNext, setPrev, hb, hbehind]
    | some w =>
      have heq : s.rmvq mp =
          (((s.setNext z w).setPrev w z).setPrev mp none).setNext mp none := by
        simp [Links.rmvq, hbefore, hbehind, setNext, setPrev, hz]
      rw [heq]
      refine ⟨?_, ?_, fun b hb => ?_, fun b hb => ?_, rfl⟩
      · simp [setNext, setPrev, hbefore]
      · simp [setNext, setPrev, hbehind]
      · simp [setNext, setPrev, update_apply, hb, hbefore, hbehind, eq_comm (a := z)]
      · simp [setNext, setPrev, update_apply, hb, hbefore, hbehind, eq_comm (a := w)]

/-- The list without the message. -/
theorem Unlinked.doubly (ht : Unlinked s t mp)
    (h : Doubly s.bNext s.bPrev s.qFirst s.qLast (l₁ ++ mp :: l₂))
    (hnd : (l₁ ++ mp :: l₂).Nodup) : Doubly t.bNext t.bPrev t.qFirst t.qLast (l₁ ++ l₂) := by
  have hp : s.bPrev mp = l₁.getLast? := h.prev_eq
  have hn : s.bNext mp = l₂.head? := h.next_eq
  have hmp : mp ∉ l₁ ++ l₂ := (nodup_cons.mp (nodup_middle.mp hnd)).1
  have hne : ∀ b ∈ l₁ ++ l₂, b ≠ mp := fun b hb heq => hmp (heq ▸ hb)
  refine h.remove hnd ?_ ?_ ?_ ?_ ?_ ?_
  · rw [ht.first_eq, hp, hn, h.first_eq]
    cases l₁ with
    | nil => rfl
    | cons x l => simp
  · rw [ht.last_eq, hp, hn, h.last_eq]
    cases l₂ with
    | nil => simp
    | cons x l => simp [List.getLast?_append, List.getLast?_cons]
  · intro z hz
    rw [ht.next_eq z (hne z (mem_append_left _ (mem_of_getLast? hz))), hp, if_pos hz, hn]
  · intro z hz
    rw [ht.prev_eq z (hne z (mem_append_right _ (mem_of_head? hz))), hn, if_pos hz, hp]
  · intro b hb hlb
    rw [ht.next_eq b (hne b hb), hp, if_neg hlb]
  · intro b hb hlb
    rw [ht.prev_eq b (hne b hb), hn, if_neg hlb]

theorem Links.rmvq_spec (h : Doubly s.bNext s.bPrev s.qFirst s.qLast (l₁ ++ mp :: l₂))
    (hnd : (l₁ ++ mp :: l₂).Nodup) : Unlinked s (s.rmvq mp) mp := by
  refine Links.rmvq_unlinked ?_
  rw [h.prev_eq]
  intro heq
  refine (nodup_cons.mp (nodup_middle.mp hnd)).1 ?_
  exact mem_append_left _ (mem_of_getLast? heq)

/-- `getq` takes off the first message as `rmvq` would. -/
theorem Links.getq_spec (h : Doubly s.bNext s.bPrev s.qFirst s.qLast r) :
    s.getq.1 = r.head? ∧ s.getq.2 = match r.head? with
      | none => s
      | some bp => s.rmvq bp := by
  have hfirst := h.first_eq
  cases r with
  | nil =>
    have hf : s.qFirst = none := hfirst
    unfold Links.getq
    rw [hf]
    exact ⟨rfl, rfl⟩
  | cons bp r =>
    have hf : s.qFirst = some bp := hfirst
    have hp : s.bPrev bp = none := by
      have h' : Doubly s.bNext s.bPrev s.qFirst s.qLast ([] ++ bp :: r) := h
      exact h'.prev_eq
    unfold Links.getq
    rw [hf]
    refine ⟨rfl, ?_⟩
    cases hn : s.bNext bp <;> simp [Links.rmvq, hp, hn, setNext, setPrev]

end stores

/-! ## One call -/

section calls

variable {n k : ℕ} {s t : Links n} {a a' : ByClass n} {bp mp : Fin n} {l₁ l₂ r : List (Fin n)}

section

variable (h : Holds s a)

include h

theorem Holds.queclass_pri {b : Fin n} (hb : b ∈ a.pri) :
    s.queclass b = 0o200 := by
  rw [queclass_eq, if_pos (h.pri_ge b hb)]

theorem Holds.queclass_norm {b : Fin n} (hb : b ∈ a.norm) : s.queclass b = 0 := by
  rw [queclass_eq, if_neg (Nat.not_le.mpr (h.norm_lt b hb))]

theorem Holds.queued_eq : s.queued = a.all := by
  refine h.linked.next_linked.walk_eq ?_
  have := h.nodup.length_le_card
  rwa [Fintype.card_fin] at this

/-- A message was stored, and the classes say where. -/
theorem Holds.stored (hbp : bp ∉ a.all) (ht : Stored s t bp l₁ l₂)
    (hall : a.all = l₁ ++ l₂) (hall' : a'.all = l₁ ++ bp :: l₂) (htype : a'.dbType = a.dbType)
    (hpri : ∀ b ∈ a'.pri, QPCTL ≤ (s.dbType b).toNat)
    (hnorm : ∀ b ∈ a'.norm, (s.dbType b).toNat < QPCTL) : Holds t a' := by
  have hnd := h.nodup
  have hlinked := h.linked
  rw [hall] at hnd hlinked hbp
  refine ⟨?_, ?_, ?_, ?_, ?_⟩
  · rw [hall']
    exact ht.doubly hlinked hnd hbp
  · rw [hall']
    exact nodup_middle.mpr (nodup_cons.mpr ⟨hbp, hnd⟩)
  · rw [htype, h.dbType_eq, ht.dbType_eq]
  · rw [ht.dbType_eq]
    exact hpri
  · rw [ht.dbType_eq]
    exact hnorm

/-- **`putq`** puts a message behind those of its class. -/
theorem Holds.putq (hbp : bp ∉ a.all) : ∃ t, s.putq bp = some t ∧
    Holds t (a.putq bp) ∧ ∀ b, b ∉ a.all → b ≠ bp → t.bNext b = s.bNext b := by
  by_cases hhigh : QPCTL ≤ (s.dbType bp).toNat
  · have hputq : a.putq bp = { a with pri := a.pri ++ [bp] } := by
      rw [ByClass.putq, h.dbType_eq, if_pos hhigh]
    have hcls : s.queclass bp = 0o200 := by rw [queclass_eq, if_pos hhigh]
    have hpri : ∀ b ∈ a.pri ++ [bp], QPCTL ≤ (s.dbType b).toNat := by
      intro b hb
      rcases mem_append.mp hb with hb | hb
      · exact h.pri_ge b hb
      · rw [mem_singleton.mp hb]
        exact hhigh
    have hstored : ∃ t, s.putq bp = some t ∧ Stored s t bp a.pri a.norm := by
      have hlinked := h.linked
      have hnd := h.nodup
      rw [ByClass.all] at hlinked hnd hbp
      cases hnorm : a.norm with
      | nil =>
        rw [hnorm, append_nil] at hlinked hbp
        refine Links.putq_last hlinked hbp fun z hz => ?_
        rw [hcls, h.queclass_pri (mem_of_getLast? hz)]
        exact UInt8.le_refl _
      | cons z l =>
        rw [hnorm] at hlinked hnd hbp
        refine Links.putq_before hlinked hnd hbp (fun b hb => ?_) (fun b hb => ?_)
        · rw [hcls, h.queclass_pri hb]
          exact UInt8.le_refl _
        · rw [hcls, h.queclass_norm (hnorm ▸ hb)]
          decide
    obtain ⟨t, heq, ht⟩ := hstored
    refine ⟨t, heq, ?_, fun b hb hne => ht.next_same hb hne⟩
    rw [hputq]
    refine h.stored hbp ht rfl ?_ rfl hpri h.norm_lt
    rw [ByClass.all, append_assoc, singleton_append]
  · have hputq : a.putq bp = { a with norm := a.norm ++ [bp] } := by
      rw [ByClass.putq, h.dbType_eq, if_neg hhigh]
    have hcls : s.queclass bp = 0 := by rw [queclass_eq, if_neg hhigh]
    obtain ⟨t, heq, ht⟩ := Links.putq_last h.linked hbp fun z _ => by
      rw [hcls]
      exact UInt8.zero_le
    refine ⟨t, heq, ?_, fun b hb hne => ht.next_same (by rwa [append_nil]) hne⟩
    rw [hputq]
    refine h.stored hbp ht (append_nil _).symm ?_ rfl h.pri_ge fun b hb => ?_
    · rw [ByClass.all, ByClass.all, append_assoc]
    · rcases mem_append.mp hb with hb | hb
      · exact h.norm_lt b hb
      · rw [mem_singleton.mp hb]
        exact Nat.not_le.mp hhigh

/-- **`putbq`** puts a message before those of its class. -/
theorem Holds.putbq (hbp : bp ∉ a.all) : ∃ t, s.putbq bp = some t ∧
    Holds t (a.putbq bp) := by
  by_cases hhigh : QPCTL ≤ (s.dbType bp).toNat
  · have hputbq : a.putbq bp = { a with pri := bp :: a.pri } := by
      rw [ByClass.putbq, h.dbType_eq, if_pos hhigh]
    have hcls : s.queclass bp = 0o200 := by rw [queclass_eq, if_pos hhigh]
    obtain ⟨t, heq, ht⟩ := Links.putbq_first h.linked hbp fun z _ => by
      rw [hcls, queclass_eq]
      split_ifs
      · exact UInt8.le_refl _
      · decide
    refine ⟨t, heq, ?_⟩
    rw [hputbq]
    refine h.stored hbp ht rfl rfl rfl (fun b hb => ?_) h.norm_lt
    rcases mem_cons.mp hb with rfl | hb
    · exact hhigh
    · exact h.pri_ge b hb
  · have hputbq : a.putbq bp = { a with norm := bp :: a.norm } := by
      rw [ByClass.putbq, h.dbType_eq, if_neg hhigh]
    have hcls : s.queclass bp = 0 := by rw [queclass_eq, if_neg hhigh]
    have hstored : ∃ t, s.putbq bp = some t ∧ Stored s t bp a.pri a.norm := by
      have hlinked := h.linked
      have hnd := h.nodup
      rw [ByClass.all] at hlinked hnd hbp
      cases hpri : a.pri with
      | nil =>
        rw [hpri, nil_append] at hlinked hbp
        refine Links.putbq_first hlinked hbp fun z hz => ?_
        rw [hcls, h.queclass_norm (mem_of_head? hz)]
        exact UInt8.le_refl _
      | cons z l =>
        rw [hpri] at hlinked hnd hbp
        refine Links.putbq_behind hlinked hnd hbp (fun b hb => ?_) (fun b hb => ?_)
        · rw [hcls, h.queclass_pri (hpri ▸ hb)]
          decide
        · rw [hcls, h.queclass_norm hb]
          decide
    obtain ⟨t, heq, ht⟩ := hstored
    refine ⟨t, heq, ?_⟩
    rw [hputbq]
    refine h.stored hbp ht rfl rfl rfl h.pri_ge fun b hb => ?_
    rcases mem_cons.mp hb with rfl | hb
    · exact Nat.not_le.mp hhigh
    · exact h.norm_lt b hb

/-- **`rmvq`** leaves the other messages in their order. -/
theorem Holds.rmvq (hmp : mp ∈ a.all) :
    Holds (s.rmvq mp) { a with pri := a.pri.erase mp, norm := a.norm.erase mp } := by
  have hall : a.pri.erase mp ++ a.norm.erase mp = a.all.erase mp := by
    have hnd := nodup_append.mp h.nodup
    rw [ByClass.all, erase_append]
    by_cases hp : mp ∈ a.pri
    · have hn : mp ∉ a.norm := fun hn => hnd.2.2 mp hp mp hn rfl
      rw [if_pos hp, erase_of_not_mem hn]
    · rw [if_neg hp, erase_of_not_mem hp]
  obtain ⟨l₁, l₂, heq⟩ := append_of_mem hmp
  have hlinked := h.linked
  have hnd := h.nodup
  rw [heq] at hlinked hnd
  have ht := Links.rmvq_spec hlinked hnd
  have hnot : mp ∉ l₁ := by
    intro hin
    exact (nodup_cons.mp (nodup_middle.mp hnd)).1 (mem_append_left _ hin)
  have herase : a.all.erase mp = l₁ ++ l₂ := by
    rw [heq, erase_append_right _ hnot, erase_cons_head]
  refine ⟨?_, ?_, ?_, ?_, ?_⟩
  · rw [ByClass.all, hall, herase]
    exact ht.doubly hlinked hnd
  · rw [ByClass.all, hall]
    exact h.nodup.erase mp
  · rw [ht.dbType_eq, ← h.dbType_eq]
  · rw [ht.dbType_eq]
    exact fun b hb => h.pri_ge b (mem_of_mem_erase hb)
  · rw [ht.dbType_eq]
    exact fun b hb => h.norm_lt b (mem_of_mem_erase hb)

/-- **`getq`** takes off the first message, one of the higher class if there is one. -/
theorem Holds.getq :
    s.getq.1 = a.all.head? ∧ Holds s.getq.2 (a.step .getq) := by
  obtain ⟨hret, hlinks⟩ := Links.getq_spec h.linked
  refine ⟨hret, ?_⟩
  have hnd := h.nodup
  rw [hlinks]
  unfold ByClass.step
  dsimp only
  cases hpri : a.pri with
  | nil =>
    cases hnorm : a.norm with
    | nil =>
      have hall : a.all = [] := by rw [ByClass.all, hpri, hnorm]; rfl
      rw [hall]
      exact ⟨by simpa [ByClass.all, hpri, hnorm] using h.linked, by simp [ByClass.all],
        h.dbType_eq, by simp, by simp⟩
    | cons b norm =>
      have hall : a.all = b :: norm := by rw [ByClass.all, hpri, hnorm]; rfl
      have hrm := @Holds.rmvq _ _ _ b h (by rw [hall]; exact mem_cons_self)
      rw [hpri, hnorm, erase_cons_head] at hrm
      rw [hall]
      simpa [hpri] using hrm
  | cons b pri =>
    have hall : a.all = b :: (pri ++ a.norm) := by rw [ByClass.all, hpri]; rfl
    have hrm := @Holds.rmvq _ _ _ b h (by rw [hall]; exact mem_cons_self)
    have hnot : b ∉ a.norm := by
      rw [hall] at hnd
      exact fun hb => (nodup_cons.mp hnd).1 (mem_append_right _ hb)
    rw [hpri, erase_cons_head, erase_of_not_mem hnot] at hrm
    rw [hall]
    exact hrm

end

/-- The classes after the messages of `r` were looked at by `flushq`. -/
def putKept (flag : Bool) (r : List (Fin n)) (a : ByClass n) : ByClass n :=
  r.foldl (fun a bp => if Links.kept flag (a.dbType bp) then a.putq bp else a) a

theorem ByClass.mem_putq {b : Fin n} : b ∈ (a.putq bp).all ↔ b = bp ∨ b ∈ a.all := by
  unfold ByClass.putq
  by_cases h : QPCTL ≤ (a.dbType bp).toNat
  · simp [if_pos h, ByClass.all]
    tauto
  · simp [if_neg h, ByClass.all]
    tauto

/-- The loop of `flushq`: the links of the messages it has not come to are those of the old
queue, while the others are put on the new one. -/
theorem Links.flushLoop_spec {flag : Bool} {freed : Fin n → Option (Fin n)}
    {f : Option (Fin n)} (hold : Linked s.bNext f r) (h : Holds s a) (hnd : r.Nodup)
    (hnew : ∀ b ∈ r, b ∉ a.all) (hk : r.length ≤ k) :
    ∃ t, Links.flushLoop flag freed k f s = some t ∧ Holds t (putKept flag r a) := by
  induction r generalizing k s a f with
  | nil =>
    obtain rfl : f = none := hold
    refine ⟨s, ?_, h⟩
    unfold Links.flushLoop
    rfl
  | cons bp r ih =>
    obtain ⟨rfl, hold⟩ := hold
    obtain ⟨k, rfl⟩ : ∃ j, k = j + 1 := ⟨k - 1, by simp at hk; omega⟩
    have hlen : r.length ≤ k := by simpa using hk
    obtain ⟨hbp, hnd⟩ := nodup_cons.mp hnd
    have hnotin := hnew bp mem_cons_self
    have hrest : ∀ b ∈ r, b ≠ bp := fun b hb heq => hbp (heq ▸ hb)
    have hnew' : ∀ b ∈ r, b ∉ a.all := fun b hb => hnew b (mem_cons_of_mem _ hb)
    unfold Links.flushLoop
    rw [putKept, foldl_cons, h.dbType_eq]
    split_ifs
    · obtain ⟨t, heq, ht, hsame⟩ := h.putq hnotin
      rw [heq]
      refine ih (hold.congr fun b hb => hsame b (hnew' b hb) (hrest b hb)) ht hnd (fun b hb => ?_)
        hlen
      rw [ByClass.mem_putq]
      rintro (rfl | hin)
      · exact hbp hb
      · exact hnew' b hb hin
    · have hnext : ∀ b, b ≠ bp → (s.setNext bp (freed bp)).bNext b = s.bNext b :=
        fun b hb => update_of_ne hb _ _
      refine ih (hold.congr fun b hb => hnext b (hrest b hb)) ?_ hnd hnew' hlen
      refine ⟨⟨?_, h.linked.prev_linked⟩, h.nodup, h.dbType_eq, h.pri_ge, h.norm_lt⟩
      exact h.linked.next_linked.congr fun b hb => hnext b fun heq => hnotin (heq ▸ hb)

/-- The messages of one class come back in their order. -/
theorem putKept_pri {flag : Bool} {pri : List (Fin n)}
    (h : ∀ b ∈ pri, QPCTL ≤ (a.dbType b).toNat) : putKept flag pri a =
      { a with pri := a.pri ++ pri.filter fun bp => Links.kept flag (a.dbType bp) } := by
  induction pri generalizing a with
  | nil => simp [putKept]
  | cons b pri ih =>
    rw [putKept, foldl_cons]
    have hrest : ∀ c ∈ pri, QPCTL ≤ (a.dbType c).toNat := fun c hc =>
      h c (mem_cons_of_mem _ hc)
    by_cases hkept : Links.kept flag (a.dbType b) = true
    · have hputq : a.putq b = { a with pri := a.pri ++ [b] } := by
        rw [ByClass.putq, if_pos (h b mem_cons_self)]
      rw [if_pos hkept, filter_cons, if_pos hkept, hputq]
      refine (ih (a := { a with pri := a.pri ++ [b] }) hrest).trans ?_
      simp
    · rw [if_neg hkept, filter_cons, if_neg hkept]
      exact ih hrest

theorem putKept_norm {flag : Bool} {norm : List (Fin n)}
    (h : ∀ b ∈ norm, (a.dbType b).toNat < QPCTL) : putKept flag norm a =
      { a with norm := a.norm ++ norm.filter fun bp => Links.kept flag (a.dbType bp) } := by
  induction norm generalizing a with
  | nil => simp [putKept]
  | cons b norm ih =>
    rw [putKept, foldl_cons]
    have hrest : ∀ c ∈ norm, (a.dbType c).toNat < QPCTL := fun c hc =>
      h c (mem_cons_of_mem _ hc)
    by_cases hkept : Links.kept flag (a.dbType b) = true
    · have hputq : a.putq b = { a with norm := a.norm ++ [b] } := by
        rw [ByClass.putq, if_neg (Nat.not_le.mpr (h b mem_cons_self))]
      rw [if_pos hkept, filter_cons, if_pos hkept, hputq]
      refine (ih (a := { a with norm := a.norm ++ [b] }) hrest).trans ?_
      simp
    · rw [if_neg hkept, filter_cons, if_neg hkept]
      exact ih hrest

/-- **`flushq`** leaves the messages it keeps in their order. -/
theorem Holds.flushq {flag : Bool} {freed : Fin n → Option (Fin n)} (h : Holds s a) :
    ∃ t, s.flushq flag freed = some t ∧ Holds t (a.step (.flushq flag freed)) := by
  have hempty : Holds { s with qFirst := none, qLast := none } ⟨[], [], a.dbType⟩ :=
    ⟨doubly_nil, nodup_nil, h.dbType_eq, by simp, by simp⟩
  have hlen : a.all.length ≤ n := by
    have := h.nodup.length_le_card
    rwa [Fintype.card_fin] at this
  have hloop : ∃ t, s.flushq flag freed = some t ∧
      Holds t (putKept flag a.all ⟨[], [], a.dbType⟩) :=
    Links.flushLoop_spec h.linked.next_linked hempty h.nodup (fun b _ => by simp [ByClass.all])
      hlen
  obtain ⟨t, heq, ht⟩ := hloop
  refine ⟨t, heq, ?_⟩
  have hput : putKept flag a.all ⟨[], [], a.dbType⟩ = a.step (.flushq flag freed) := by
    have hpri : ∀ b ∈ a.pri, QPCTL ≤ (a.dbType b).toNat := by
      rw [h.dbType_eq]
      exact h.pri_ge
    have hnorm : ∀ b ∈ a.norm, (a.dbType b).toNat < QPCTL := by
      rw [h.dbType_eq]
      exact h.norm_lt
    rw [putKept, ByClass.all, foldl_append]
    change putKept flag a.norm (putKept flag a.pri _) = _
    rw [putKept_pri (a := ⟨[], [], a.dbType⟩) hpri,
      putKept_norm (a := ⟨[] ++ _, [], a.dbType⟩) hnorm]
    rfl
  rwa [← hput]

/-- **Every call** does to the linked list what it means for the classes, and none follows a
null pointer or loops. -/
theorem Links.step_refines (h : Holds s a) {call : LinkCall n} (hcall : s.Allowed call) :
    ∃ t, s.step call = some t ∧ Holds t (a.step call) := by
  unfold Links.step
  rw [if_pos hcall]
  have hqueued := h.queued_eq
  cases call with
  | putq bp =>
    have hbp : bp ∉ a.all := by rw [← hqueued]; exact hcall
    obtain ⟨t, heq, ht, -⟩ := h.putq hbp
    exact ⟨t, heq, ht⟩
  | putbq bp => exact h.putbq (by rw [← hqueued]; exact hcall.1)
  | getq => exact ⟨_, rfl, h.getq.2⟩
  | rmvq mp => exact ⟨_, rfl, h.rmvq (by rw [← hqueued]; exact hcall)⟩
  | flushq flag freed => exact h.flushq
  | own bp next prev type =>
    have hbp : bp ∉ a.all := by rw [← hqueued]; exact hcall
    have hne : ∀ b ∈ a.all, b ≠ bp := fun b hb heq => hbp (heq ▸ hb)
    refine ⟨_, rfl, ⟨⟨?_, ?_⟩, h.nodup, ?_, fun b hb => ?_, fun b hb => ?_⟩⟩
    · exact h.linked.next_linked.congr fun b hb => update_of_ne (hne b hb) _ _
    · refine h.linked.prev_linked.congr fun b hb => update_of_ne (hne b ?_) _ _
      exact mem_reverse.mp hb
    · show update a.dbType bp type = update s.dbType bp type
      rw [h.dbType_eq]
    · show QPCTL ≤ (update s.dbType bp type b).toNat
      rw [update_of_ne (hne b (mem_append_left _ hb))]
      exact h.pri_ge b hb
    · show (update s.dbType bp type b).toNat < QPCTL
      rw [update_of_ne (hne b (mem_append_right _ hb))]
      exact h.norm_lt b hb

/-! ## The places in `Stream` -/

section places

variable {m : Msg} {pri norm : List Msg} {msg : Fin n → Msg}

end places

/-! ## Every sequence of calls -/

/-- **The order of messages.**  After every sequence of calls on a queue that was empty, its
linked list is that of the two classes, `getq` returns the first of it, and every next call is
carried out. -/
theorem message_order {bNext bPrev : Fin n → Option (Fin n)} {dbType : Fin n → UInt8}
    {calls : List (LinkCall n)}
    (hs : exec Links.step (Links.empty bNext bPrev dbType) calls = some s) :
    let a := calls.foldl ByClass.step ⟨[], [], dbType⟩
    Holds s a ∧ s.queued = a.pri ++ a.norm ∧ s.getq.1 = (a.pri ++ a.norm).head? ∧
      ∀ call, s.Allowed call → ∃ t, s.step call = some t ∧ Holds t (a.step call) := by
  intro a
  have hempty : Holds (Links.empty bNext bPrev dbType) ⟨[], [], dbType⟩ :=
    ⟨doubly_nil, nodup_nil, rfl, by simp, by simp⟩
  have hstep : ∀ (s : Links n) (a : ByClass n) call t, Holds s a → s.step call = some t →
      Holds t (a.step call) := by
    intro s a call t h ht
    have hcall : s.Allowed call := by
      by_contra hnot
      rw [Links.step, if_neg hnot] at ht
      cases ht
    obtain ⟨u, hu, h'⟩ := Links.step_refines h hcall
    rw [ht] at hu
    cases hu
    exact h'
  have h : Holds s a := exec_simulation hstep hempty hs
  exact ⟨h, h.queued_eq, h.getq.1, fun call hcall => Links.step_refines h hcall⟩

/-- A priority message passes two others, one of which is put back. -/
theorem message_order_three : ∃ s, exec Links.step (@Links.empty 3 (fun _ => none) (fun _ => none)
      ![0, 0o200, 1]) [.putq 0, .putq 2, .putq 1, .getq, .getq, .putbq 0] = some s ∧
    s.queued = [0, 2] := by
  obtain ⟨s, hs⟩ : ∃ s, exec Links.step (@Links.empty 3 (fun _ => none) (fun _ => none)
      ![0, 0o200, 1]) [.putq 0, .putq 2, .putq 1, .getq, .getq, .putbq 0] = some s :=
    Option.isSome_iff_exists.mp (by decide)
  exact ⟨s, hs, (message_order hs).2.1⟩

end calls

end Io
