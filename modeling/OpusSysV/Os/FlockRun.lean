import OpusSysV.Os.FlockMap
import OpusSysV.Os.FlockWait

/-!
# Record locks exclude each other

What the calls of all processes do to the bytes of the files, in any interleaving, whether they
succeed, fail for want of records, sleep or are interrupted.

* `scan_within` — whatever way the scan of `flckadj` ends, each lock that it leaves lies in one that
  was there, and those of other owners are all there.
* `change` — what an event does to the bytes when it returns 0; `Serves` — what it does otherwise.
* `locks_exclude` — in every state reached, and what the next event does.
-/

namespace Os

open Lib Function List Option

variable {me : Owner} {l l' : List Filock} {f g flp : Filock} {ld : Flock} {sc : Scan} {idx k : ℕ}
  {m : ByteMap}

/-! ## Locks that lie in others -/

/-- The lock is a part of another. -/
def Filock.Within (f g : Filock) : Prop :=
  f.owner = g.owner ∧ f.set.lType = g.set.lType ∧ g.set.lStart ≤ f.set.lStart ∧
    f.set.lEnd ≤ g.set.lEnd

/-- The locks are parts of what was there, and those of other owners are all there. -/
def Shrinks (me : Owner) (l l' : List Filock) : Prop :=
  (∀ f ∈ l', ∃ g ∈ l, f.Within g) ∧ ∀ g ∈ l, g.owner ≠ me → g ∈ l'

theorem Shrinks.refl : Shrinks me l l :=
  ⟨fun f hf => ⟨f, hf, rfl, rfl, le_rfl, le_rfl⟩, fun _ hg _ => hg⟩

theorem Shrinks.append {n n' : List Filock} (h : Shrinks me l l') (h' : Shrinks me n n') :
    Shrinks me (l ++ n) (l' ++ n') := by
  constructor
  · intro f hf
    rcases mem_append.mp hf with hf | hf
    · obtain ⟨g, hg, hfg⟩ := h.1 f hf
      exact ⟨g, mem_append_left _ hg, hfg⟩
    · obtain ⟨g, hg, hfg⟩ := h'.1 f hf
      exact ⟨g, mem_append_right _ hg, hfg⟩
  · intro g hg ho
    exact (mem_append.mp hg).elim (fun hg => mem_append_left _ (h.2 g hg ho))
      fun hg => mem_append_right _ (h'.2 g hg ho)

/-- A lock of the caller is replaced by parts of it. -/
theorem shrinks_parts (ho : flp.owner = me) (h : ∀ f ∈ l', f.Within flp ∨ f ∈ l) (hl : l ⊆ l') :
    Shrinks me (flp :: l) l' := by
  refine ⟨fun f hf => ?_, fun g hg hne => ?_⟩
  · rcases h f hf with hw | hf
    · exact ⟨flp, mem_cons_self, hw⟩
    · exact ⟨f, mem_cons_of_mem _ hf, rfl, rfl, le_rfl, le_rfl⟩
  · rcases mem_cons.mp hg with rfl | hg
    · exact absurd ho hne
    · exact hl hg

/-- What a turn at a lock of the caller leaves. -/
def TurnShrinks (me : Owner) (flp : Filock) (rest : List Filock) : Turn → Prop
  | .goOn kept _ => Shrinks me [flp] kept.toList
  | .stop locks _ => Shrinks me (flp :: rest) locks
  | _ => True

theorem TurnCases.shrinks {r : Turn} (ho : flp.owner = me) (hld : sc.ld.lStart ≤ sc.ld.lEnd)
    (h : TurnCases sc idx flp l r) : TurnShrinks me flp l r := by
  have hnew : ∀ {t : ℤ}, flp.set.lStart ≤ t + 1 →
      (newLock flp.owner { flp.set with lStart := t + 1 }).Within flp := fun ht =>
    ⟨rfl, rfl, ht, le_rfl⟩
  have hcut : ∀ {cut : Filock}, cut.set = { flp.set with lEnd := sc.ld.lStart - 1 } →
      cut.owner = flp.owner → sc.ld.lStart - 1 ≤ flp.set.lEnd → cut.Within flp := by
    intro cut hset howner hle
    unfold Filock.Within
    rw [hset]
    exact ⟨howner, rfl, le_rfl, hle⟩
  cases h with
  | drop | absorbLeft => exact shrinks_parts ho (fun f hf => by cases hf) (nil_subset _)
  | trim sc' cut hs hm he hty hld' hins hc =>
    refine shrinks_parts ho (fun f hf => .inl ?_) (nil_subset _)
    rw [mem_singleton.mp hf]
    exact hcut hc.1 hc.2 (by omega)
  | keep | beyond => exact .refl
  | absorbRight => exact shrinks_parts ho (fun f hf => .inr hf) (List.Subset.refl _)
  | splitOff sc' hs hm he hty hld' hins =>
    refine shrinks_parts ho (fun f hf => ?_) fun f hf => mem_insertWalk.mpr (.inr hf)
    rcases mem_insertWalk.mp hf with rfl | hf
    · exact .inl (hnew (by omega))
    · exact .inr hf
  | splitBoth sc' cut hs he hty hld' hins hc =>
    refine shrinks_parts ho (fun f hf => ?_) fun f hf =>
      mem_cons_of_mem _ (mem_insertWalk.mpr (.inr hf))
    rcases mem_cons.mp hf with rfl | hf
    · exact .inl (hcut hc.1 hc.2 (by omega))
    rcases mem_insertWalk.mp hf with rfl | hf
    · exact .inl (hnew (by omega))
    · exact .inr hf
  | inside | enolck => trivial

/-- The caller loses bytes, and nobody else does. -/
def Loses (me : Owner) (m m' : ByteMap) : Prop :=
  (∀ o, o ≠ me → m' o = m o) ∧ ∀ b, m' me b = m me b ∨ m' me b = none

theorem Refines.shrinks (h : Refines l m) (hl : LockList l') (hs : Shrinks me l l') :
    Refines l' (byteMap l') ∧ Loses me m (byteMap l') := by
  have hsub : ∀ {o b ty}, byteMap l' o b = some ty → m o b = some ty := by
    intro o b ty hb
    obtain ⟨f, hf, rfl, rfl, h1, h2⟩ := (byteMap_eq_some hl).mp hb
    obtain ⟨g, hg, ho, hty, h3, h4⟩ := hs.1 f hf
    exact h.holds.mpr ⟨g, hg, ho.symm, hty.symm, h3.trans h1, h2.trans h4⟩
  refine ⟨⟨hl, rfl, fun o o' b ty ty' hne h1 h2 => h.compatible o o' b ty ty' hne (hsub h1) (hsub h2)⟩,
    fun o ho => ?_, fun b => ?_⟩
  · funext b
    refine Option.ext fun ty => ⟨hsub, fun hm => ?_⟩
    obtain ⟨g, hg, rfl, hrest⟩ := h.holds.mp hm
    exact (byteMap_eq_some hl).mpr ⟨g, hs.2 g hg ho, rfl, hrest⟩
  · cases hb : byteMap l' me b with
    | none => exact .inr rfl
    | some ty => exact .inl (hsub hb).symm

/-- The bytes depend on the ranges and the owners. -/
theorem Refines.congr (h : Refines l m)
    (hc : l'.map (fun f => (f.set, f.owner)) = l.map fun f => (f.set, f.owner)) : Refines l' m := by
  have hmem : ∀ {l l' : List Filock}, l'.map (fun f => (f.set, f.owner)) =
      l.map (fun f => (f.set, f.owner)) → ∀ f ∈ l', ∃ g ∈ l, g.set = f.set ∧ g.owner = f.owner := by
    intro l l' hc f hf
    have := mem_map_of_mem (f := fun f : Filock => (f.set, f.owner)) hf
    rw [hc] at this
    obtain ⟨g, hg, heq⟩ := List.mem_map.mp this
    exact ⟨g, hg, (Prod.mk.inj heq).1, (Prod.mk.inj heq).2⟩
  have hl : LockList l' := by
    constructor
    · intro f hf
      obtain ⟨g, hg, h1, -⟩ := hmem hc f hf
      have hv := h.list.valid g hg
      unfold Filock.Valid at hv ⊢
      rwa [h1] at hv
    · have hp : (l.map fun f => (f.set, f.owner)).Pairwise fun x y =>
          Sep ⟨x.1, x.2, 0⟩ ⟨y.1, y.2, 0⟩ := pairwise_map.mpr h.list.sep
      rw [← hc, pairwise_map] at hp
      exact hp
  refine ⟨hl, byteMap_eq_of_holds hl fun o b ty => ?_, h.compatible⟩
  rw [h.holds]
  constructor
  · rintro ⟨f, hf, hrest⟩
    obtain ⟨g, hg, h1, h2⟩ := hmem hc f hf
    exact ⟨g, hg, by rwa [h1, h2]⟩
  · rintro ⟨f, hf, hrest⟩
    obtain ⟨g, hg, h1, h2⟩ := hmem hc.symm f hf
    exact ⟨g, hg, by rwa [h1, h2]⟩

namespace Rec

variable {front l : List Rec} {sc : Adj} {fr : List ℕ}

/-- **However the scan ends**, its list is in order, and no lock has grown. -/
theorem scan_within (h : Scanning me (locks front) (locks l) sc.forget) :
    LockList (locks front ++ locks (scan me sc front.length l).2.1) ∧
      Shrinks me (locks l) (locks (scan me sc front.length l).2.1) := by
  induction l generalizing front sc with
  | nil => exact ⟨h.list, .refl⟩
  | cons flp rest ih =>
    unfold scan
    by_cases ho : flp.lock.owner = me
    · rw [if_pos ho]
      have hv := (lockList_cons.mp (lockList_append.mp h.list).2.1).1.1
      have hok : TurnOk me (locks front) flp.lock (locks rest) sc.forget
        (Os.turn me sc.forget (locks front).length flp.lock (locks rest)) := turn_spec h ho
      have hsh := (Os.turn_cases ho h.range hv (locks front).length (locks rest)).shrinks ho h.range
      rw [show (locks front).length = front.length from length_map _, ← turn_forget] at hok hsh
      cases ht : turn me sc front.length flp rest with
      | goOn kept sc' =>
        rw [ht] at hok hsh
        have hk : (kept.map Rec.lock).toList = locks kept.toList := by cases kept <;> rfl
        simp only [Turn.forget, TurnOk, TurnShrinks, hk, ← locks_append] at hok hsh
        obtain ⟨h1, h2⟩ := ih hok.1
        rw [length_append] at h1 h2
        dsimp only
        rw [locks_append, ← append_assoc, ← locks_append]
        exact ⟨h1, hsh.append h2⟩
      | stop l' sc' =>
        rw [ht] at hok hsh
        exact ⟨hok.1.list, hsh⟩
      | ret0 => exact ⟨h.list, .refl⟩
      | enolck => exact ⟨h.list, .refl⟩
    · rw [if_neg ho]
      have hp : Scanning me (locks (front ++ [flp])) (locks rest) sc.forget := by
        rw [locks_append]
        exact h.pass ho
      obtain ⟨h1, h2⟩ := ih hp
      rw [length_append] at h1 h2
      rw [locks_append, append_assoc] at h1
      exact ⟨h1, Shrinks.append (l := [flp.lock]) .refl h2⟩

/-- A request that `flckadj` does not carry out takes bytes from its caller at most. -/
theorem flckadj_fails (h : Refines (locks l) m) (hf : Fit me (locks l) k ld)
    (hr : (flckadj me fr l k ld).1 = false) :
    ∃ m', Refines (locks (flckadj me fr l k ld).2.1) m' ∧ Loses me m m' := by
  have hsc := hf.scanning fr.length
  have hlen : (l.take (k - 1)).length = k - 1 := by
    have := hf.le
    rw [locks, length_map] at this
    rw [length_take]
    omega
  rw [locks, ← map_take, ← map_drop] at hsc
  obtain ⟨h1, h2⟩ := @scan_within me (l.take (k - 1)) _ ⟨ld, k, fr, []⟩ hsc
  rw [hlen, ← locks_append] at h1
  rw [hlen] at h2
  have hsh : Shrinks me (locks l) (locks (l.take (k - 1) ++
      (scan me ⟨ld, k, fr, []⟩ (k - 1) (l.drop (k - 1))).2.1)) := by
    have := (@Shrinks.refl me (locks (l.take (k - 1)))).append h2
    rwa [← locks_append, ← locks_append, take_append_drop] at this
  have hlist : (flckadj me fr l k ld).2.1 = l.take (k - 1) ++
      (scan me ⟨ld, k, fr, []⟩ (k - 1) (l.drop (k - 1))).2.1 := by
    unfold flckadj at hr ⊢
    generalize scan me ⟨ld, k, fr, []⟩ (k - 1) (l.drop (k - 1)) = r at hr ⊢
    obtain ⟨e, locks, ld', k', fr', woken⟩ := r
    cases e with
    | enolck => rfl
    | ret0 => rfl
    | fell =>
      dsimp only at hr ⊢
      by_cases hun : ld'.lType = .unlck
      · rw [if_pos hun]
      · rw [if_neg hun] at hr ⊢
        cases fr' with
        | nil => rfl
        | cons a fr' => cases hr
  rw [hlist]
  exact ⟨_, h.shrinks h1 hsh⟩

end Rec

/-! ## The calls -/

theorem bump_locks {l : List Rec} {found : Rec} :
    (Rec.locks (LockSys.bump l found)).map (fun f => (f.set, f.owner)) =
      (Rec.locks l).map fun f => (f.set, f.owner) := by
  unfold Rec.locks LockSys.bump
  rw [List.map_map, List.map_map, List.map_map]
  refine map_congr_left fun r _ => ?_
  show (fun f : Filock => (f.set, f.owner)) (ite _ _ _ : Rec).lock = _
  split <;> rfl

namespace LockSys

variable {s t : LockSys} {ip : ℕ} {setflck slpflck server : Bool} {ret : LockRet} {ev : SleepEvent}
  {m : ℕ → ByteMap}

/-- What the locks of each file say about its bytes. -/
def bytes (s : LockSys) (ip : ℕ) : ByteMap := byteMap (Rec.locks (s.files ip))

/-- What an event does to the bytes when it returns 0: whose they are, the file, and the change. -/
def change (s : LockSys) : SleepEvent → Option (Owner × ℕ × (ByteMap → ByteMap))
  | .reclock me ip iSize offset _ _ arg true _ _ => (lockRange iSize offset arg).map fun r =>
      (me, ip, fun m => m.put me r.1 r.2 (granted arg.lType))
  | .retry me =>
    match s.call me with
    | some ⟨ip, ld, true, _⟩ => some (me, ip, fun m => m.put me ld.lStart ld.lEnd (granted ld.lType))
    | _ => none
  | .cleanlocks me ip ignPid => some (me, ip, fun m => m.clear (cleans me ignPid))
  | _ => none

/-- What a call does to the bytes `m`: what it asks for when it returns 0, nothing when it does not,
except that with `ENOLCK` the caller may have lost some. -/
def Serves (m : ℕ → ByteMap) (c : Option (Owner × ℕ × (ByteMap → ByteMap))) (ret : LockRet)
    (m' : ℕ → ByteMap) : Prop :=
  match c with
  | none => m' = m
  | some (me, ip, f) => (ret = .ok → m' = update m ip (f (m ip))) ∧
      (ret = .ENOLCK → ∃ b, Loses me (m ip) b ∧ m' = update m ip b) ∧
      (ret ≠ .ok → ret ≠ .ENOLCK → m' = m)

/-- The locks keep to the map, and requests that wait have a range. -/
structure Keeps (s : LockSys) (m : ℕ → ByteMap) : Prop where
  files : ∀ x, Refines (Rec.locks (s.files x)) (m x)
  call : ∀ p c, s.call p = some c → c.ld.lStart ≤ c.ld.lEnd

theorem Keeps.bytes (h : s.Keeps m) : s.bytes = m := funext fun x => (h.files x).bytes

theorem Keeps.store {l : List Rec} {b : ByteMap} (h : s.Keeps m) (hl : Refines (Rec.locks l) b)
    (hf : t.files = update s.files ip l)
    (hc : ∀ p c, t.call p = some c → s.call p = some c ∨ c.ld.lStart ≤ c.ld.lEnd) :
    t.Keeps (update m ip b) := by
  refine ⟨fun x => ?_, fun p c hp => (hc p c hp).elim (h.call p c) id⟩
  rw [hf]
  by_cases hx : x = ip
  · rw [hx, update_self, update_self]
    exact hl
  · rw [update_of_ne hx, update_of_ne hx]
    exact h.files x

theorem call_update {v : Option Pending} (hv : ∀ c, v = some c → c.ld.lStart ≤ c.ld.lEnd)
    (p : Owner) (c : Pending) (hc : update s.call me v p = some c) :
    s.call p = some c ∨ c.ld.lStart ≤ c.ld.lEnd := by
  rw [update_apply] at hc
  split_ifs at hc with hp
  · exact .inr (hv c hc)
  · exact .inl hc

theorem serves_same {c : Option (Owner × ℕ × (ByteMap → ByteMap))} (h : c = none ∨ ret ≠ .ok) :
    Serves m c ret m := by
  rcases c with - | ⟨me, ip, f⟩
  · rfl
  · refine ⟨fun hr => absurd hr (h.resolve_left (by simp)), fun _ => ⟨m ip, ?_, ?_⟩, fun _ _ => rfl⟩
    · exact ⟨fun _ _ => rfl, fun _ => .inl rfl⟩
    · rw [update_eq_self]

/-- The request as a change of the bytes. -/
def asked (me : Owner) (ip : ℕ) (ld : Flock) (setflck : Bool) :
    Option (Owner × ℕ × (ByteMap → ByteMap)) :=
  if setflck then some (me, ip, fun m => m.put me ld.lStart ld.lEnd (granted ld.lType)) else none

/-- The list is adjusted. -/
theorem Keeps.adjust (h : s.Keeps m) (hf : Fit me (Rec.locks (s.files ip)) k ld)
    (ha : s.adjust me ip k ld = (ret, t)) :
    ∃ m', t.Keeps m' ∧ Serves m (asked me ip ld true) ret m' := by
  unfold LockSys.adjust at ha
  obtain ⟨hret, rfl⟩ := Prod.mk.inj ha
  have hfiles : ∀ {b}, Refines (Rec.locks (Rec.flckadj me s.frlock (s.files ip) k ld).2.1) b →
      (s.store ip (Rec.flckadj me s.frlock (s.files ip) k ld).2.1
        (Rec.flckadj me s.frlock (s.files ip) k ld).2.2).Keeps (update m ip b) := fun hb =>
    h.store hb rfl fun p c hc => .inl hc
  by_cases hr : (Rec.flckadj me s.frlock (s.files ip) k ld).1 = true
  · have hadj := @Rec.flckadj_forget me (s.files ip) ld s.frlock k
    rw [if_pos hr] at hadj hret
    refine ⟨_, hfiles ((h.files ip).flckadj hf hadj), fun _ => rfl, fun he => ?_, fun he => ?_⟩
    · rw [← hret] at he
      cases he
    · exact absurd hret.symm he
  · obtain ⟨b, hb, hl⟩ := Rec.flckadj_fails (h.files ip) hf (Bool.eq_false_iff.mpr hr)
    rw [if_neg hr] at hret
    refine ⟨_, hfiles hb, fun he => ?_, fun _ => ⟨b, hl, rfl⟩, fun _ he => ?_⟩
    · rw [← hret] at he
      cases he
    · exact absurd hret.symm he

/-- A request sleeps, or is refused before it sleeps. -/
theorem Keeps.wait {found : Rec} (h : s.Keeps m) (hld : ld.lStart ≤ ld.lEnd)
    (hw : s.wait me ip ld setflck server found = (ret, t)) : t.Keeps m ∧ ret ≠ .ok := by
  unfold LockSys.wait at hw
  split at hw
  · cases hw
    exact ⟨h, by simp⟩
  · cases hw
    exact ⟨h, by simp⟩
  · cases hfr : s.frlock with
    | nil =>
      rw [hfr] at hw
      cases hw
      exact ⟨h, by simp⟩
    | cons a fr =>
      rw [hfr] at hw
      dsimp only at hw
      split_ifs at hw
      · cases hw
        exact ⟨h, by simp⟩
      · cases hw
        have hl := (h.files ip).congr (@bump_locks _ found)
        have hk := h.store (t := s.sleepOn me ip ld setflck found a fr) hl rfl
          (call_update fun c hc => by cases hc; exact hld)
        rw [update_eq_self] at hk
        exact ⟨hk, by simp⟩

/-- **A turn of the loop of `sys_reclock`.** -/
theorem Keeps.turn (h : s.Keeps m) (hld : ld.lStart ≤ ld.lEnd)
    (ht : s.turn me ip ld setflck slpflck server = (ret, t)) :
    ∃ m', t.Keeps m' ∧ Serves m (asked me ip ld setflck) ret m' := by
  have hsame : ∀ {r}, (r, s) = (ret, t) → setflck = false ∨ r ≠ .ok →
      ∃ m', t.Keeps m' ∧ Serves m (asked me ip ld setflck) ret m' := by
    rintro r heq hr
    cases heq
    exact ⟨m, h, serves_same (hr.imp_left fun hr => by simp [asked, hr])⟩
  have hadjust : ∀ {k}, setflck = true → Fit me (Rec.locks (s.files ip)) k ld →
      s.adjust me ip k ld = (ret, t) →
      ∃ m', t.Keeps m' ∧ Serves m (asked me ip ld setflck) ret m' := by
    rintro k rfl hf ha
    exact h.adjust hf ha
  have hlist := (h.files ip).list
  unfold LockSys.turn at ht
  cases hty : ld.lType with
  | invalid =>
    simp only [hty] at ht
    exact hsame ht (.inr (by simp))
  | unlck =>
    have hf := @fit_unlck me _ _ hlist hld hty
    simp only [Rec.locks, map_eq_nil_iff] at hf
    simp only [hty] at ht
    by_cases hs : setflck = true
    · rw [if_pos hs] at ht
      exact hadjust hs hf ht
    · rw [if_neg hs] at ht
      exact hsame ht (.inl (Bool.eq_false_iff.mpr hs))
  | rdlck | wrlck =>
    have hbl := @Rec.blocked_forget me (s.files ip) ld
    simp only [hty] at ht
    split at ht
    next insrt hb =>
      rw [hb] at hbl
      split_ifs at ht with hs
      exacts [hadjust hs (fit_blocked hlist hld (by simp [hty]) hbl) ht,
        hsame ht (.inl (Bool.eq_false_iff.mpr hs))]
    next found hb =>
      split_ifs at ht with h1 h2
      · obtain ⟨hk, hr⟩ := h.wait hld ht
        exact ⟨m, hk, serves_same (.inr hr)⟩
      · exact hsame ht (.inr (by simp))
      · exact hsame ht (.inl (Bool.eq_false_iff.mpr h2))

/-- The locks stay where only the calls change. -/
theorem Keeps.calls {v : Option Pending} (h : s.Keeps m) (hf : t.files = s.files)
    (hc : t.call = update s.call me v) (hv : ∀ c, v = some c → c.ld.lStart ≤ c.ld.lEnd) : t.Keeps m :=
  ⟨by rw [hf]; exact h.files, fun p c hp => (call_update hv p c (hc ▸ hp)).elim (h.call p c) id⟩

/-- **One event.** -/
theorem Keeps.run (h : s.Keeps m) (hrun : s.run ev = some (ret, t)) :
    ∃ m', t.Keeps m' ∧ Serves m (s.change ev) ret m' := by
  cases ev with
  | reclock me ip iSize offset fread fwrite arg setflck slpflck server =>
    simp only [LockSys.run] at hrun
    obtain ⟨-, hr⟩ := ite_none_right_eq_some.mp hrun
    replace hr := Option.some.inj hr
    unfold LockSys.reclock at hr
    split_ifs at hr
    · cases hr
      exact ⟨m, h, serves_same (.inr (by simp))⟩
    cases hrange : lockRange iSize offset arg with
    | none =>
      rw [hrange] at hr
      cases hr
      exact ⟨m, h, serves_same (.inr (by simp))⟩
    | some r =>
      rw [hrange] at hr
      obtain ⟨m', hk, hs⟩ := h.turn (lockRange_le hrange) hr
      refine ⟨m', hk, ?_⟩
      cases setflck with
      | true =>
        simp only [change, hrange]
        exact hs
      | false => exact hs
  | wake me =>
    simp only [LockSys.run] at hrun
    split at hrun
    next ip ld setflck sf hc =>
      obtain ⟨-, hr⟩ := ite_none_right_eq_some.mp hrun
      cases hr
      refine ⟨m, h.calls rfl rfl fun c hc' => ?_, rfl⟩
      cases hc'
      have := h.call me _ hc
      exact this
    next => cases hrun
  | retry me =>
    simp only [LockSys.run] at hrun
    split at hrun
    next ip ld setflck hc =>
      have hr := Option.some.inj hrun
      obtain ⟨r, u, hturn⟩ : ∃ r u, s.turn me ip ld setflck true false = (r, u) := ⟨_, _, rfl⟩
      obtain ⟨m', hk, hs⟩ := h.turn (h.call me _ hc) hturn
      have hch : s.change (.retry me) = asked me ip ld setflck := by
        simp only [change, hc]
        cases setflck <;> rfl
      rw [hturn, finish] at hr
      rw [hch]
      split_ifs at hr
      · cases hr
        exact ⟨m', hk, hs⟩
      · cases hr
        exact ⟨m', hk.calls rfl rfl (fun c hc => by cases hc), hs⟩
    next => cases hrun
  | interrupt me =>
    simp only [LockSys.run] at hrun
    split at hrun
    next ip ld setflck sf hc =>
      cases hrun
      exact ⟨m, h.calls rfl rfl (fun c hc => by cases hc), rfl⟩
    next => cases hrun
  | cleanlocks me ip ignPid =>
    simp only [LockSys.run] at hrun
    obtain ⟨-, hr⟩ := ite_none_right_eq_some.mp hrun
    cases hr
    have hl : Refines (Rec.locks ((s.files ip).filter fun r => !cleans me ignPid r.lock.owner))
        ((m ip).clear (cleans me ignPid)) := by
      have := (h.files ip).cleanlocks me ignPid
      unfold Os.cleanlocks at this
      rwa [Rec.locks, List.filter_map] at this
    exact ⟨_, h.store hl rfl fun p c hc => .inl hc, fun _ => rfl, (fun he => by cases he),
      fun he => absurd rfl he⟩

/-- **Record locks exclude each other**, in every interleaving of calls, wakeups and signals: in every
state reached the locks of each file are in order, those of one owner apart, and a byte that two owners
have locked is locked for reading by both; and the next event changes the bytes of its file as it asks if
it returns 0, and those of no other file; without success it changes none, but with `ENOLCK` its
caller may have lost some. -/
theorem locks_exclude {recs : ℕ} {es : List SleepEvent}
    (h : exec LockSys.step (LockSys.init recs) es = some s) :
    (∀ ip, LockList (Rec.locks (s.files ip)) ∧ (s.bytes ip).Compatible) ∧
      ∀ ev ret t, s.run ev = some (ret, t) → Serves s.bytes (s.change ev) ret t.bytes := by
  have hk : ∃ m, s.Keeps m := by
    refine exec_invariant' (P := fun s => ∃ m, s.Keeps m) ?_ ⟨fun _ _ _ => none, ?_, ?_⟩ h
    · rintro s ev t ⟨m, hm⟩ ht
      obtain ⟨⟨ret, u⟩, hrun, rfl⟩ := Option.map_eq_some_iff.mp ht
      obtain ⟨m', hm', -⟩ := hm.run hrun
      exact ⟨m', hm'⟩
    · exact fun _ => refines_nil
    · exact fun p c hc => by cases hc
  obtain ⟨m, hm⟩ := hk
  refine ⟨fun ip => ⟨(hm.files ip).list, ?_⟩, fun ev ret t hrun => ?_⟩
  · rw [hm.bytes]
    exact (hm.files ip).compatible
  · obtain ⟨m', hm', hs⟩ := hm.run hrun
    rw [hm.bytes, hm'.bytes]
    exact hs

/-! ## The records -/

/-- Where a record can be. -/
inductive Place
  | free
  | sleeping
  | file (ip : ℕ)
  deriving DecidableEq

/-- The records that are there. -/
def held (s : LockSys) : Place → List ℕ
  | .free => s.frlock
  | .sleeping => s.sleeplcks.map Sleeper.addr
  | .file ip => (s.files ip).map Rec.addr

/-- Each record is in one place, once, and a call that sleeps has its entry. -/
structure Conserves (recs : ℕ) (s : LockSys) : Prop where
  place : ∀ a, ∃ p, ∀ q, (s.held q).count a = if a < recs ∧ q = p then 1 else 0
  entry : ∀ p c sf, s.call p = some c → c.sf = some sf → ∃ e ∈ s.sleeplcks, e.addr = sf ∧ e.owner = p

section

variable {recs sf : ℕ} {v : Option Pending} (h : Conserves recs s)
include h

/-- Records go from one place to another. -/
theorem Conserves.move {x y : Place} (hne : x ≠ y) (hcall : t.call = update s.call me v)
    (hsum : ∀ a, (t.held x).count a + (t.held y).count a = (s.held x).count a + (s.held y).count a)
    (hrest : ∀ q, q ≠ x → q ≠ y → t.held q = s.held q)
    (hkeep : ∀ e ∈ s.sleeplcks, e.owner ≠ me → e ∈ t.sleeplcks)
    (hv : ∀ c sf, v = some c → c.sf = some sf → ∃ e ∈ t.sleeplcks, e.addr = sf ∧ e.owner = me) :
    Conserves recs t := by
  refine ⟨fun a => ?_, fun p c sf hc hsf => ?_⟩
  · obtain ⟨p, hp⟩ := h.place a
    have hs := hsum a
    rw [hp, hp] at hs
    refine ⟨if (t.held x).count a = 1 then x else if (t.held y).count a = 1 then y else p, fun q => ?_⟩
    have hq : q ≠ x → q ≠ y → (t.held q).count a = if a < recs ∧ q = p then 1 else 0 :=
      fun h1 h2 => by rw [hrest q h1 h2, hp]
    clear hkeep hv hrest hsum hp
    by_cases h1 : q = x <;> by_cases h2 : q = y <;> grind
  · rw [hcall] at hc
    rw [update_apply] at hc
    split_ifs at hc with hp
    · subst hp
      exact hv c sf hc hsf
    · obtain ⟨e, he, ha, ho⟩ := h.entry p c sf hc hsf
      exact ⟨e, hkeep e he (ho ▸ hp), ha, ho⟩

theorem Conserves.store {l : List Rec} {sc : Adj}
    (hk : Rec.Kept (s.files ip) l s.frlock sc.frlock sc.woken) :
    Conserves recs { s.store ip l sc with call := update s.call me none } := by
  refine h.move (x := .free) (y := .file ip) (by simp) rfl (fun a => ?_) (fun q h1 h2 => ?_)
    (fun e he _ => he) fun c sf hc => by cases hc
  · have := hk.count a
    simpa [held, LockSys.store, wakeAll] using this
  · cases q with
    | free => exact absurd rfl h1
    | sleeping => rfl
    | file x => exact congrArg _ (update_of_ne (fun hx : x = ip => h2 (hx ▸ rfl)) ..)

theorem Conserves.same : Conserves recs { s with call := update s.call me none } := by
  have := @Conserves.store me s 0 recs h _ ⟨⟨.unlck, 0, 0⟩, 0, s.frlock, []⟩ .refl
  simpa [LockSys.store, wakeAll] using this

theorem Conserves.turn :
    Conserves recs (finish (s.turn me ip ld setflck slpflck server) me).2 := by
  generalize hr : s.turn me ip ld setflck slpflck server = r
  cases hr ▸ turn_cases with
  | same ret hret =>
    rw [finish, if_neg hret.1]
    exact h.same
  | adjust ret hret l sc hk =>
    rw [finish, if_neg hret.1]
    exact h.store hk
  | deadlock => exact h.same
  | sleeps found a fr hsl hserver hb hd hfr =>
    refine h.move (t := s.sleepOn me ip ld setflck found a fr) (x := .free) (y := .sleeping) (by simp)
      rfl (fun b => ?_) (fun q h1 h2 => ?_) (fun e he _ => mem_cons_of_mem _ he) fun c sf hc hsf => ?_
    · simp only [held, sleepOn, hfr, map_cons, count_cons]
      omega
    · cases q with
      | file x => by_cases hx : x = ip <;> simp [held, sleepOn, hx, Inv.bump_addr]
      | _ => simp at h1 h2
    · cases hc
      cases hsf
      exact ⟨_, mem_cons_self, rfl, rfl⟩

/-- A sleeper gives its entry back. -/
theorem Conserves.leaves {c : Pending} (hc : s.call me = some c) (hsf : c.sf = some sf)
    (hv : ∀ c, v = some c → c.sf = none) (slp : Owner → Option ℕ) :
    Conserves recs { s.unlinkSleeper sf with slp := slp, call := update s.call me v } := by
  obtain ⟨e, he, ha, ho⟩ := h.entry me c sf hc hsf
  obtain ⟨e₁, l₁, l₂, -, he₁, hl, hl'⟩ :=
    exists_of_eraseP (p := fun e => decide (e.addr = sf)) he (decide_eq_true ha)
  have hnd : (s.sleeplcks.map Sleeper.addr).Nodup := by
    refine nodup_iff_count_le_one.mpr fun a => ?_
    obtain ⟨p, hp⟩ := h.place a
    have := hp .sleeping
    rw [held] at this
    split_ifs at this <;> omega
  refine h.move (x := .free) (y := .sleeping) (by simp) rfl (fun b => ?_) (fun q h1 h2 => ?_)
    (fun e' he' ho' => (mem_eraseP_of_neg ?_).mpr he') fun c sf hc hsf => ?_
  · simp only [held, unlinkSleeper, hl']
    rw [hl]
    simp only [map_append, map_cons, count_append, count_cons, of_decide_eq_true he₁]
    omega
  · cases q with
    | file => rfl
    | _ => simp at h1 h2
  · rw [decide_eq_true_eq]
    rintro rfl
    exact ho' (inj_on_of_nodup_map hnd he he' ha ▸ ho)
  · rw [hv c hc] at hsf
    cases hsf

theorem Conserves.run (hrun : s.run ev = some (ret, t)) : Conserves recs t := by
  cases ev with
  | reclock me ip iSize offset fread fwrite arg setflck slpflck server =>
    simp only [LockSys.run] at hrun
    obtain ⟨hme, hr⟩ := ite_none_right_eq_some.mp hrun
    replace hr := Option.some.inj hr
    unfold LockSys.reclock at hr
    split_ifs at hr
    · cases hr
      exact h
    · split at hr
      · cases hr
        exact h
      · rw [show t = (ret, t).2 from rfl, ← hr, ← turn_cases.finish_eq hme]
        exact h.turn
  | wake me =>
    simp only [LockSys.run] at hrun
    split at hrun
    next ip ld setflck sf hc =>
      obtain ⟨-, hr⟩ := ite_none_right_eq_some.mp hrun
      cases hr
      exact h.leaves hc rfl (fun c hc => by cases hc; rfl) s.slp
    next => cases hrun
  | retry me =>
    simp only [LockSys.run] at hrun
    split at hrun
    next ip ld setflck hc =>
      rw [show t = (ret, t).2 from rfl, ← Option.some.inj hrun]
      exact h.turn
    next => cases hrun
  | interrupt me =>
    simp only [LockSys.run] at hrun
    split at hrun
    next ip ld setflck sf hc =>
      cases hrun
      exact h.leaves hc rfl (fun c hc => by cases hc) _
    next => cases hrun
  | cleanlocks me ip ignPid =>
    simp only [LockSys.run] at hrun
    obtain ⟨hme, hr⟩ := ite_none_right_eq_some.mp hrun
    cases hr
    have ht := @Conserves.store me s ip recs h _ _
      (@Rec.cleaned_kept ⟨⟨.unlck, 0, 0⟩, 0, s.frlock, []⟩ (s.files ip)
        fun r => cleans me ignPid r.lock.owner).2
    rwa [← hme, update_eq_self] at ht

end

/-- **No record is lost**: in every interleaving each of the `recs` records is on the free list, on
the list of sleepers or on the list of one file, once. -/
theorem records_conserved {recs : ℕ} {es : List SleepEvent}
    (h : exec LockSys.step (LockSys.init recs) es = some s) (a : ℕ) :
    ∃ p, ∀ q, (s.held q).count a = if a < recs ∧ q = p then 1 else 0 := by
  refine (exec_invariant' (P := Conserves recs) ?_ ⟨fun a => ⟨.free, fun q => ?_⟩, ?_⟩ h).place a
  · rintro s ev t hs ht
    obtain ⟨⟨ret, u⟩, hrun, rfl⟩ := Option.map_eq_some_iff.mp ht
    exact hs.run hrun
  · cases q <;> simp [held, LockSys.init, List.Nodup.count nodup_range]
  · exact fun p c sf hc => by cases hc

/-- A process sleeps for a lock until its owner removes it. -/
def handOver : List SleepEvent :=
  [lockTen 1 0 .wrlck false, lockTen 2 0 .wrlck true, lockTen 1 0 .unlck false, .wake ⟨2, 0⟩,
    .retry ⟨2, 0⟩]

theorem locks_exclude_handOver : ∃ s, exec LockSys.step (LockSys.init 4) handOver = some s ∧
    s.bytes 0 ⟨2, 0⟩ 5 = some .wrlck ∧ (s.bytes 0).Compatible := by
  have hrun : exec LockSys.step (LockSys.init 4) handOver = some _ := rfl
  exact ⟨_, hrun, rfl, ((locks_exclude hrun).1 0).2⟩

theorem records_conserved_handOver : ∃ s, exec LockSys.step (LockSys.init 4) handOver = some s ∧
    ∃ p, ∀ q, (s.held q).count 2 = if 2 < 4 ∧ q = p then 1 else 0 := by
  have hrun : exec LockSys.step (LockSys.init 4) handOver = some _ := rfl
  exact ⟨_, hrun, records_conserved hrun 2⟩

end LockSys

end Os
