import OpusSysV.Lib.Follow
import OpusSysV.Lib.Run
import Mathlib.Data.Int.Notation
import Mathlib.Tactic.Push

/-!
# Links of multiplexors: `I_LINK`, `I_UNLINK` and closing

A stream whose driver is a multiplexor has other streams linked under the driver.  A link is an
entry of `linkblk[]`: the write queue at the driver end of the upper stream, the write queue at the
head of the lower one, and the file through which the lower one was named, on which the link holds
a reference.  The last close of a stream removes the links of its own driver, and that may close
the streams below.

* `linkcycle`, `findlinks`, `alloclink`, `munlink`, `munlinkall` — the routines.
* `closef` — closing a file, with the streams that are closed by it.
* `Sys.step` — a sequence of calls by any processes; what the drivers answer is part of the event.
* `Inv` — the links form no cycle, `STPLEX` counts the entries, and each entry holds a reference.
* `linkcycle_false` — the search for cycles compares queues of different kinds and finds none;
  that there are none is due to `STPLEX`.
* `links_run` — all of it in every sequence whose unlinks name a link of the calling stream.

A stream is known by its inode.
-/

namespace Io.Mux

open Lib Function List Option

/-! ## The table of links -/

/-- The write queues of a stream that a link can name: that of the stream head, and that of the
driver, the end of `q_next`. -/
inductive Queue
  | head (ip : ℕ)
  | drv (ip : ℕ)
  deriving DecidableEq, Repr

/-- `struct linkblk`; the entry is free when `l_qtop` is null. -/
structure Linkblk where
  l_qtop : Option Queue
  l_qbot : Queue
  l_index : ℕ
  deriving DecidableEq, Repr

/-- `linkcycle(qup, qdown)`, down to `n` levels. -/
def linkcycle (linkblk : List Linkblk) (qup : Queue) : ℕ → Queue → Bool
  | 0, _ => false
  | n + 1, qdown => linkblk.any fun l =>
      l.l_qtop = some qdown ∧ (l.l_qbot = qup ∨ linkcycle linkblk qup n l.l_qbot)

/-- `findlinks(qup, qdown, index)`, where a null pointer and 0 stand for any value. -/
def findlinks (linkblk : List Linkblk) (qup qdown : Option Queue) (index : ℕ) : Option ℕ :=
  linkblk.findIdx? fun l => l.l_qtop.isSome ∧ (qup = none ∨ qup = l.l_qtop) ∧
    (qdown = none ∨ qdown = some l.l_qbot) ∧ (index = 0 ∨ index = l.l_index)

/-- `alloclink`: the place of a free entry. -/
def alloclink (linkblk : List Linkblk) : Option ℕ := linkblk.findIdx? fun l => l.l_qtop = none

/-! ## Streams and files -/

/-- `struct file`: its references and the inode, if it is that of a streams device; the inode stays
when the file is closed. -/
structure File where
  f_count : ℤ
  f_inode : Option ℕ
  deriving DecidableEq, Repr

/-- What links look at in `struct stdata`: the flags, and whether the driver is a multiplexor. -/
structure Stdata where
  STPLEX : Bool
  STRHUP : Bool
  STRERR : Bool
  IOCWAIT : Bool
  st_muxwinit : Bool
  deriving DecidableEq, Repr

/-- The file table of `ve_file` slots, the streams of the inodes, and the links.  `refs` is not in
the source: the references to a file that are not those of links. -/
structure Sys where
  file : ℕ → File
  ve_file : ℕ
  i_sptr : ℕ → Option Stdata
  linkblk : List Linkblk
  refs : ℕ → ℤ

namespace Sys

/-- The stream of an open file. -/
def stream (s : Sys) (i : ℕ) : Option ℕ :=
  ((s.file i).f_inode).filter fun ip => (s.i_sptr ip).isSome

def setCount (s : Sys) (i : ℕ) (n : ℤ) : Sys :=
  { s with file := update s.file i { s.file i with f_count := n } }

def setRefs (s : Sys) (i : ℕ) (n : ℤ) : Sys := { s with refs := update s.refs i n }

def setStream (s : Sys) (ip : ℕ) (d : Option Stdata) : Sys :=
  { s with i_sptr := update s.i_sptr ip d }

/-- Store into an entry of the table. -/
def setLink (s : Sys) (k : ℕ) (l : Linkblk) : Sys := { s with linkblk := s.linkblk.set k l }

/-- `munlink(stp, &file[i], &linkblk[k], cflag)` after its ioctl, where `close` is `closef`; a null
pointer is followed when the file has no stream. -/
def munlink (close : Sys → ℕ → Option Sys) (s : Sys) (i k : ℕ) : Option Sys :=
  match (s.file i).f_inode, s.linkblk[k]? with
  | some ip, some l =>
    match s.i_sptr ip with
    | some d =>
      let s := s.setStream ip (some { d with STPLEX := false })
      close (s.setLink k { l with l_qtop := none }) i
    | none => none
  | _, _ => none

/-- `munlinkall(stp, cflag)` for at most `n` links; `oks` are the answers to the ioctls, which do
not matter with `cflag`. -/
def munlinkall (close : Sys → ℕ → Option Sys) (q : Queue) (cflag : Bool) :
    ℕ → List Bool → Sys → Option Sys
  | n, oks, s =>
    match findlinks s.linkblk (some q) none 0 with
    | none => some s
    | some k =>
      match n with
      | 0 => none
      | n + 1 =>
        if cflag ∨ oks.headD true then
          match s.linkblk[k]? with
          | some l => (munlink close s l.l_index k).bind (munlinkall close q cflag n oks.tail)
          | none => none
        else some s

/-- `closef(&file[i])`, to a depth of `n` streams.  The device is closed with the last file that has
its inode. -/
def closef : ℕ → Sys → ℕ → Option Sys
  | 0, _, _ => none
  | n + 1, s, i =>
    if (s.file i).f_count ≤ 0 then some s
    else if 1 < (s.file i).f_count then some (s.setCount i ((s.file i).f_count - 1))
    else
      let closed := match s.stream i with
        | none => some s
        | some ip =>
          if ∃ j < s.ve_file, j ≠ i ∧ 0 < (s.file j).f_count ∧ (s.file j).f_inode = some ip then
            some s
          else munlinkall (closef n) (.drv ip) true n [] (s.setStream ip none)
      closed.map fun s => s.setCount i 0

/-- The links there are. -/
def used (s : Sys) : ℕ := s.linkblk.countP fun l => l.l_qtop.isSome

end Sys

/-! ## The calls -/

/-- What happens: a streams device is opened or a file gets another reference; a process gives one
back; the flags of a stream head change; `I_LINK` of file `i` under the stream of file `up`;
`I_UNLINK` by the stream of file `up`, with the answers to its ioctls. -/
inductive MuxEvent
  | open (i ip : ℕ) (muxwinit : Bool)
  | dup (i : ℕ)
  | close (i : ℕ)
  | flags (ip : ℕ) (STRHUP STRERR IOCWAIT : Bool)
  | link (up i : ℕ) (ok : Bool)
  | unlink (up : ℕ) (arg : ℤ) (oks : List Bool)
  deriving DecidableEq, Repr

namespace Sys

/-- `case I_LINK` for the streams `a` and `b`, where `b` is that of `&file[i]`.  An error is the
state unchanged. -/
def iLink (s : Sys) (a b i : ℕ) (ok : Bool) : Sys :=
  match s.i_sptr a, s.i_sptr b with
  | some up, some down =>
    if up.STRHUP ∨ ¬ up.st_muxwinit then s
    else if b = a ∨ down.STPLEX ∨ down.STRHUP ∨ down.STRERR ∨ down.IOCWAIT ∨
        linkcycle s.linkblk (.drv a) (s.linkblk.length + 1) (.head b) then s
    else match alloclink s.linkblk with
    | none => s
    | some k =>
      if ok then
        let s := s.setLink k ⟨some (.drv a), .head b, i⟩
        let s := s.setStream b (some { down with STPLEX := true })
        s.setCount i ((s.file i).f_count + 1)
      else s.setLink k ⟨none, .head b, i⟩
  | _, _ => s

/-- The link that `I_UNLINK` finds for an index. -/
def found (s : Sys) (arg : ℤ) : Option ℕ :=
  if 0 ≤ arg ∧ arg < s.ve_file then
    match s.stream arg.toNat with
    | none => none
    | some b =>
      if (s.i_sptr b).any Stdata.STPLEX then findlinks s.linkblk none (some (.head b)) arg.toNat
      else none
  else none

/-- `case I_UNLINK` for the stream `a`. -/
def iUnlink (s : Sys) (a : ℕ) (arg : ℤ) (oks : List Bool) : Option Sys :=
  match s.i_sptr a with
  | none => some s
  | some up =>
    if up.STRHUP then some s
    else if arg = -1 then munlinkall (closef (s.used + 1)) (.drv a) false s.used oks s
    else match s.found arg with
    | none => some s
    | some k => if oks.headD true then munlink (closef (s.used + 1)) s arg.toNat k else some s

/-- One call.  An ioctl on a stream with `STRERR` or `STPLEX` fails at once. -/
def step (s : Sys) : MuxEvent → Option Sys
  | .open i ip muxwinit =>
    if i < s.ve_file ∧ (s.file i).f_count ≤ 0 then
      let s := { s with file := update s.file i ⟨1, some ip⟩ }
      let s := s.setRefs i 1
      match s.i_sptr ip with
      | some _ => some s
      | none => some (s.setStream ip (some ⟨false, false, false, false, muxwinit⟩))
    else none
  | .dup i =>
    if 0 < s.refs i then some ((s.setCount i ((s.file i).f_count + 1)).setRefs i (s.refs i + 1))
    else none
  | .close i =>
    if 0 < s.refs i then closef (s.used + 1) (s.setRefs i (s.refs i - 1)) i else none
  | .flags ip hup err ioc =>
    (s.i_sptr ip).map fun d =>
      s.setStream ip (some { d with STRHUP := hup, STRERR := err, IOCWAIT := ioc })
  | .link up i ok =>
    if 0 < s.refs up ∧ 0 < s.refs i then
      match s.stream up, s.stream i with
      | some a, some b =>
        if (s.i_sptr a).any fun d => d.STRERR ∨ d.STPLEX then some s else some (s.iLink a b i ok)
      | _, _ => some s
    else none
  | .unlink up arg oks =>
    if 0 < s.refs up then
      match s.stream up with
      | some a =>
        if (s.i_sptr a).any fun d => d.STRERR ∨ d.STPLEX then some s else s.iUnlink a arg oks
      | none => some s
    else none

end Sys

/-! ## What holds between the calls -/

/-- The entry is in use and names this lower stream. -/
def names (b : ℕ) (l : Linkblk) : Bool := l.l_qtop.isSome ∧ l.l_qbot = .head b

/-- The entry is in use and holds a reference on this file. -/
def holds (i : ℕ) (l : Linkblk) : Bool := l.l_qtop.isSome ∧ l.l_index = i

/-- `STPLEX` of a stream. -/
def plex (s : Sys) (b : ℕ) : Bool := (s.i_sptr b).any Stdata.STPLEX

/-- `b` is linked under the driver of `a`. -/
def Under (s : Sys) (a b : ℕ) : Prop :=
  ∃ l ∈ s.linkblk, l.l_qtop = some (.drv a) ∧ l.l_qbot = .head b

/-- The links and the references.  `P` are the files that are being closed, whose reference is still
counted, and `C` the streams that are being closed. -/
structure Inv (s : Sys) (P C : List ℕ) : Prop where
  link : ∀ l ∈ s.linkblk, ∀ q, l.l_qtop = some q →
    ∃ a b, q = .drv a ∧ l.l_qbot = .head b ∧ (s.file l.l_index).f_inode = some b
  plex : ∀ b, s.linkblk.countP (names b) = if plex s b then 1 else 0
  count : ∀ i, (s.file i).f_count = s.refs i + s.linkblk.countP (holds i) + P.count i
  refs : ∀ i, 0 ≤ s.refs i
  live : ∀ i ip, 0 < (s.file i).f_count → (s.file i).f_inode = some ip → ip ∉ C →
    (s.i_sptr ip).isSome
  closing : ∀ ip ∈ C, s.i_sptr ip = none
  bound : ∀ i, 0 < (s.file i).f_count → i < s.ve_file
  acyclic : Acyclic (Under s)

/-- What closing leaves of the links, the files and the streams. -/
structure Shrinks (t s : Sys) : Prop where
  linkblk : ∀ (k : ℕ) (l : Linkblk), t.linkblk[k]? = some l → l.l_qtop.isSome →
    s.linkblk[k]? = some l
  used : t.used ≤ s.used
  refs : t.refs = s.refs
  ve_file : t.ve_file = s.ve_file
  inode : ∀ i, (t.file i).f_inode = (s.file i).f_inode
  f_count : ∀ i, (t.file i).f_count ≤ (s.file i).f_count
  stream : ∀ c, s.i_sptr c = none → t.i_sptr c = none

/-- The links that are gone in `t` were those of `own`, or of streams that have been closed. -/
def Kept (own : Option ℕ) (t s : Sys) : Prop :=
  ∀ (k : ℕ) (l : Linkblk), s.linkblk[k]? = some l → l.l_qtop.isSome → t.linkblk[k]? = some l ∨
    ∃ c, l.l_qtop = some (.drv c) ∧ (own = some c ∨ (s.i_sptr c).isSome ∧ t.i_sptr c = none)

section inv

variable {s t u : Sys} {P C : List ℕ} {a b i k n : ℕ} {l l' : Linkblk} {q : Queue}
  {own : Option ℕ}

theorem Shrinks.refl (s : Sys) : Shrinks s s :=
  ⟨fun _ _ h _ => h, Nat.le_refl _, rfl, rfl, fun _ => rfl, fun _ => Int.le_refl _, fun _ h => h⟩

theorem Shrinks.trans (h : Shrinks t s) (h' : Shrinks u t) : Shrinks u s :=
  ⟨fun k l hl hu => h.linkblk k l (h'.linkblk k l hl hu) hu, Nat.le_trans h'.used h.used,
    h'.refs.trans h.refs, h'.ve_file.trans h.ve_file, fun i => (h'.inode i).trans (h.inode i),
    fun i => Int.le_trans (h'.f_count i) (h.f_count i), fun c hc => h'.stream c (h.stream c hc)⟩

theorem Kept.refl (own : Option ℕ) (s : Sys) : Kept own s s := fun _ _ h _ => .inl h

theorem Kept.trans (h : Kept own t s) (hts : Shrinks t s) (h' : Kept own u t)
    (hut : Shrinks u t) : Kept own u s := by
  intro k l hl hu
  rcases h k l hl hu with ht | ⟨c, hc, ho | ⟨h1, h2⟩⟩
  · rcases h' k l ht hu with hku | ⟨c, hc, ho | ⟨h1, h2⟩⟩
    · exact .inl hku
    · exact .inr ⟨c, hc, .inl ho⟩
    · refine .inr ⟨c, hc, .inr ⟨?_, h2⟩⟩
      cases hsc : s.i_sptr c with
      | some d => rfl
      | none =>
        rw [hts.stream c hsc] at h1
        exact nomatch h1
  · exact .inr ⟨c, hc, .inl ho⟩
  · exact .inr ⟨c, hc, .inr ⟨h1, hut.stream c h2⟩⟩

theorem Kept.of_none (h : Kept none t s) : Kept own t s := by
  intro k l hl hu
  rcases h k l hl hu with ht | ⟨c, hc, ho | h2⟩
  · exact .inl ht
  · exact nomatch ho
  · exact .inr ⟨c, hc, .inr h2⟩

/-- A count of the entries after one is stored. -/
theorem count_set (p : Linkblk → Bool) (l' : Linkblk) {tab : List Linkblk} (h : tab[k]? = some l) :
    (tab.set k l').countP p + (if p l then 1 else 0) =
      tab.countP p + if p l' then 1 else 0 := by
  obtain ⟨hlt, rfl⟩ := List.getElem?_eq_some_iff.mp h
  rw [countP_set hlt]
  have hpos : p tab[k] = true → 0 < tab.countP p := fun hp =>
    countP_pos_iff.mpr ⟨_, getElem_mem hlt, hp⟩
  split_ifs with h1 h2 <;> simp_all

/-- The stream below a link. -/
theorem Inv.below (hs : Inv s P C) (hl : l ∈ s.linkblk) (hq : l.l_qtop = some q) :
    ∃ b d, l.l_qbot = .head b ∧ (s.file l.l_index).f_inode = some b ∧ s.i_sptr b = some d ∧
      d.STPLEX = true := by
  obtain ⟨a, b, -, hbot, hfile⟩ := hs.link l hl q hq
  have hpos : 0 < s.linkblk.countP (names b) :=
    countP_pos_iff.mpr ⟨l, hl, by simp [names, hq, hbot]⟩
  rw [hs.plex b] at hpos
  have hplex : Mux.plex s b = true := by
    by_contra h
    rw [if_neg h] at hpos
    exact absurd hpos (by decide)
  obtain ⟨d, hd, hp⟩ := (Option.any_eq_true _ _).mp hplex
  exact ⟨b, d, hbot, hfile, hd, hp⟩

/-! ## Removing a link -/

/-- The table and the streams after a link is removed, with its reference still counted. -/
theorem Inv.remove {d : Stdata} (hs : Inv s P C) (hk : s.linkblk[k]? = some l)
    (hq : l.l_qtop = some q) (hbot : l.l_qbot = .head b) (hd : s.i_sptr b = some d) :
    let t := (s.setStream b (some { d with STPLEX := false })).setLink k { l with l_qtop := none }
    Inv t (l.l_index :: P) C ∧ Shrinks t s ∧ t.used + 1 = s.used ∧
      ∀ j, j ≠ k → t.linkblk[j]? = s.linkblk[j]? := by
  intro t
  have hset : ∀ x ∈ t.linkblk, ∀ q, x.l_qtop = some q → x ∈ s.linkblk := by
    intro x hx q' hx'
    rcases mem_or_eq_of_mem_set hx with h | rfl
    · exact h
    · exact nomatch hx'
  have hcount : ∀ p : Linkblk → Bool, (∀ x : Linkblk, x.l_qtop = none → p x = false) →
      t.linkblk.countP p + (if p l then 1 else 0) = s.linkblk.countP p := by
    intro p hp
    have h := count_set p { l with l_qtop := none } hk
    rw [hp { l with l_qtop := none } rfl] at h
    exact h
  have hstream : ∀ ip, ip ≠ b → t.i_sptr ip = s.i_sptr ip := fun ip h => update_of_ne h _ _
  refine ⟨⟨fun x hx q' hx' => hs.link x (hset x hx q' hx') q' hx', fun ip => ?_, fun i => ?_,
    hs.refs, fun i ip hi hip hC => ?_, fun ip hC => ?_, hs.bound, ?_⟩,
    ⟨fun j x hj hx => ?_, ?_, rfl, rfl, fun _ => rfl, fun _ => Int.le_refl _, fun c hc => ?_⟩, ?_, fun j hjk => ?_⟩
  · have h := hcount (names ip) fun x hx => by simp [names, hx]
    have hold := hs.plex ip
    by_cases hip : ip = b
    · have hname : names ip l = true := by simp [names, hq, hbot, hip]
      have hon : Mux.plex t ip = false := by
        simp only [Mux.plex, hip]
        show (update s.i_sptr b _ b).any _ = false
        rw [update_self]
        rfl
      rw [hname, if_pos rfl] at h
      rw [hon, if_neg (by decide)]
      split_ifs at hold <;> omega
    · have hname : names ip l = false := by
        simp only [names, hbot, Queue.head.injEq, decide_eq_false_iff_not, not_and]
        exact fun _ h => hip h.symm
      have hsame : Mux.plex t ip = Mux.plex s ip := by rw [Mux.plex, Mux.plex, hstream ip hip]
      rw [hname, if_neg (by decide), Nat.add_zero] at h
      rw [hsame, h, hold]
  · have h := hcount (holds i) fun x hx => by simp [holds, hx]
    have hold := hs.count i
    show (s.file i).f_count = s.refs i + t.linkblk.countP (holds i) + (l.l_index :: P).count i
    rw [hold, count_cons]
    by_cases hi : l.l_index = i
    · have hhold : holds i l = true := by simp [holds, hq, hi]
      rw [hhold, if_pos rfl] at h
      rw [hi, if_pos (by simp)]
      push_cast
      omega
    · have hhold : holds i l = false := by simp [holds, hi]
      rw [hhold, if_neg (by decide)] at h
      rw [if_neg (by simpa using hi)]
      omega
  · by_cases h : ip = b
    · show (update s.i_sptr b _ ip).isSome = true
      rw [h, update_self]
      rfl
    · rw [hstream ip h]
      exact hs.live i ip hi hip hC
  · have hne : ip ≠ b := by
      rintro rfl
      rw [hs.closing ip hC] at hd
      exact nomatch hd
    rw [hstream ip hne]
    exact hs.closing ip hC
  · exact hs.acyclic.mono fun x y ⟨m, hm, h1, h2⟩ => ⟨m, hset m hm _ h1, h1, h2⟩
  · by_cases hjk : j = k
    · subst hjk
      have hlt := (List.getElem?_eq_some_iff.mp hk).1
      have hj' : (s.linkblk.set j { l with l_qtop := none })[j]? = some x := hj
      rw [List.getElem?_set_self hlt] at hj'
      cases hj'
      exact absurd hx (by simp)
    · have hj' : (s.linkblk.set k { l with l_qtop := none })[j]? = some x := hj
      rw [List.getElem?_set_ne (Ne.symm hjk)] at hj'
      exact hj'
  · have h := hcount (fun x => x.l_qtop.isSome) fun x hx => by simp [hx]
    rw [Sys.used, Sys.used]
    omega
  · have hne : c ≠ b := by
      rintro rfl
      rw [hc] at hd
      exact nomatch hd
    rw [hstream c hne]
    exact hc
  · have h := hcount (fun x => x.l_qtop.isSome) fun x hx => by simp [hx]
    rw [if_pos (by simp [hq])] at h
    exact h
  · exact List.getElem?_set_ne (Ne.symm hjk)

/-- A reference is given back, and the streams of `C'` that are not in `C` are closed. -/
theorem Inv.drop {C' : List ℕ} (hs : Inv s (i :: P) C') (hC : C ⊆ C')
    (hlive : ∀ j ip, 0 < (s.file j).f_count → (j = i → 1 < (s.file i).f_count) →
      (s.file j).f_inode = some ip → ip ∉ C → (s.i_sptr ip).isSome) :
    Inv (s.setCount i ((s.file i).f_count - 1)) P C ∧
      Shrinks (s.setCount i ((s.file i).f_count - 1)) s := by
  obtain ⟨t, ht⟩ : ∃ t, t = s.setCount i ((s.file i).f_count - 1) := ⟨_, rfl⟩
  rw [← ht]
  have hself : t.file i = ⟨(s.file i).f_count - 1, (s.file i).f_inode⟩ := by
    rw [ht]; exact update_self ..
  have hne : ∀ j, j ≠ i → t.file j = s.file j := by
    intro j hj; rw [ht]; exact update_of_ne hj ..
  have hinode : ∀ j, (t.file j).f_inode = (s.file j).f_inode := by
    intro j
    by_cases hj : j = i
    · rw [hj, hself]
    · rw [hne j hj]
  have hle : ∀ j, (t.file j).f_count ≤ (s.file j).f_count := by
    intro j
    by_cases hj : j = i
    · rw [hj, hself]
      show (s.file i).f_count - 1 ≤ (s.file i).f_count
      omega
    · exact Int.le_of_eq (by rw [hne j hj])
  obtain ⟨hl, hr, hv, hi⟩ : t.linkblk = s.linkblk ∧ t.refs = s.refs ∧ t.ve_file = s.ve_file ∧
      t.i_sptr = s.i_sptr := by subst ht; exact ⟨rfl, rfl, rfl, rfl⟩
  refine ⟨⟨fun l hm q hq => ?_, fun b => ?_, fun j => ?_, hr ▸ hs.refs, fun j ip hj hip hip' => ?_,
    fun ip hip => hi ▸ hs.closing ip (hC hip), fun j hj => ?_, ?_⟩,
    ⟨fun k l h _ => hl ▸ h, ?_, hr, hv, hinode, hle, fun c hc => hi ▸ hc⟩⟩
  · rw [hinode]
    exact hs.link l (hl ▸ hm) q hq
  · rw [hl, Mux.plex, hi]
    exact hs.plex b
  · have h := hs.count j
    rw [count_cons] at h
    rw [hl, hr]
    by_cases hj : j = i
    · rw [hj] at h ⊢
      rw [if_pos (by simp)] at h
      rw [hself]
      show (s.file i).f_count - 1 = _
      push_cast at h
      omega
    · rw [if_neg (by simpa using Ne.symm hj), Nat.add_zero] at h
      rw [hne j hj, h]
  · rw [hi]
    refine hlive j ip (Int.lt_of_lt_of_le hj (hle j)) ?_ (hinode j ▸ hip) hip'
    rintro rfl
    rw [hself] at hj
    dsimp only at hj
    omega
  · rw [hv]
    exact hs.bound j (Int.lt_of_lt_of_le hj (hle j))
  · exact hs.acyclic.mono fun x y ⟨m, hm, h⟩ => ⟨m, hl ▸ hm, h⟩
  · exact Nat.le_of_eq (by rw [Sys.used, Sys.used, hl])

/-! ## Closing -/

theorem findlinks_some {tab : List Linkblk} {qup qdown : Option Queue}
    (h : findlinks tab qup qdown n = some k) : ∃ l, tab[k]? = some l ∧ l.l_qtop.isSome ∧
      (qup = none ∨ qup = l.l_qtop) ∧ (qdown = none ∨ qdown = some l.l_qbot) ∧
      (n = 0 ∨ n = l.l_index) := by
  obtain ⟨hk, hp, -⟩ := List.findIdx?_eq_some_iff_getElem.mp h
  exact ⟨tab[k], List.getElem?_eq_getElem hk, of_decide_eq_true hp⟩

/-- What closing a file does, with at most `n` streams below it. -/
def CloseSpec (n : ℕ) (close : Sys → ℕ → Option Sys) : Prop :=
  ∀ s i P C, Inv s (i :: P) C → s.used < n →
    ∃ t, close s i = some t ∧ Inv t P C ∧ Shrinks t s ∧ Kept none t s

theorem munlink_spec {close : Sys → ℕ → Option Sys} (hclose : CloseSpec n close)
    (hs : Inv s P C) (hn : s.used ≤ n) (hk : s.linkblk[k]? = some l)
    (hq : l.l_qtop = some (.drv a)) :
    ∃ t, s.munlink close l.l_index k = some t ∧ Inv t P C ∧ Shrinks t s ∧ Kept (some a) t s ∧
      t.used < s.used := by
  obtain ⟨b, d, hbot, hfile, hd, -⟩ := hs.below (mem_of_getElem? hk) hq
  obtain ⟨hw, hsub, hused, hother⟩ := hs.remove hk hq hbot hd
  obtain ⟨w, hwdef⟩ : ∃ w, w = (s.setStream b (some { d with STPLEX := false })).setLink k
    { l with l_qtop := none } := ⟨_, rfl⟩
  rw [← hwdef] at hw hsub hused hother
  obtain ⟨t, ht, hinv, hsub', hkept⟩ := hclose w l.l_index P C hw (by omega)
  refine ⟨t, ?_, hinv, hsub.trans hsub', Kept.trans ?_ hsub hkept.of_none hsub',
    Nat.lt_of_le_of_lt hsub'.used (by omega)⟩
  · simp only [Sys.munlink, hfile, hk, hd, ← hwdef]
    exact ht
  · intro j x hj hx
    by_cases hjk : j = k
    · rw [hjk, hk] at hj
      cases hj
      exact .inr ⟨a, hq, .inl rfl⟩
    · exact .inl (hother j hjk ▸ hj)

theorem munlinkall_spec {close : Sys → ℕ → Option Sys} (hclose : CloseSpec n close) (cflag : Bool)
    (m : ℕ) : ∀ (oks : List Bool) (s : Sys), Inv s P C → s.used ≤ n → s.used ≤ m →
    ∃ t, s.munlinkall close (.drv a) cflag m oks = some t ∧ Inv t P C ∧ Shrinks t s ∧
      Kept (some a) t s := by
  induction m with
  | zero =>
    intro oks s hs _ hm
    have hf : findlinks s.linkblk (some (.drv a)) none 0 = none := by
      cases hf : findlinks s.linkblk (some (.drv a)) none 0 with
      | none => rfl
      | some k =>
        obtain ⟨l, hk, hu, -⟩ := findlinks_some hf
        have hpos : 0 < s.used := countP_pos_iff.mpr ⟨l, mem_of_getElem? hk, hu⟩
        omega
    exact ⟨s, by rw [Sys.munlinkall, hf], hs, .refl s, .refl _ s⟩
  | succ m ih =>
    intro oks s hs hn hm
    rw [Sys.munlinkall]
    cases hf : findlinks s.linkblk (some (.drv a)) none 0 with
    | none => exact ⟨s, rfl, hs, .refl s, .refl _ s⟩
    | some k =>
      dsimp only
      split_ifs with hgo
      · obtain ⟨l, hk, -, hq, -⟩ := findlinks_some hf
        have hq : l.l_qtop = some (.drv a) := by
          rcases hq with hq | hq
          · exact nomatch hq
          · exact hq.symm
        obtain ⟨t, ht, hinv, hsub, hkept, hless⟩ := munlink_spec hclose hs hn hk hq
        obtain ⟨u, hu, hinv', hsub', hkept'⟩ := ih oks.tail t hinv (by omega) (by omega)
        refine ⟨u, ?_, hinv', hsub.trans hsub', hkept.trans hsub hkept' hsub'⟩
        rw [hk]
        dsimp only
        rw [ht, bind_some, hu]
      · exact ⟨s, rfl, hs, .refl s, .refl _ s⟩

/-- The stream of a file that is closed, when no other file has its inode. -/
theorem Inv.strclose {ip : ℕ} (hs : Inv s (i :: P) C) (h1 : (s.file i).f_count = 1)
    (hlast : ¬ ∃ j < s.ve_file, j ≠ i ∧ 0 < (s.file j).f_count ∧ (s.file j).f_inode = some ip) :
    Inv (s.setStream ip none) (i :: P) (ip :: C) ∧ Shrinks (s.setStream ip none) s := by
  have hstream : ∀ c, c ≠ ip → (s.setStream ip none).i_sptr c = s.i_sptr c :=
    fun c h => update_of_ne h _ _
  have hself : (s.setStream ip none).i_sptr ip = none := update_self ..
  have hcount := hs.count i
  rw [h1, count_cons_self] at hcount
  have hrefs := hs.refs i
  -- a link below which the stream is would hold a reference on another file of the inode
  have hnone : s.linkblk.countP (names ip) = 0 := by
    rw [countP_eq_zero]
    intro l hl hname
    simp only [names, decide_eq_true_eq] at hname
    obtain ⟨q, hq⟩ := isSome_iff_exists.mp hname.1
    obtain ⟨a, b, -, hbot, hfile⟩ := hs.link l hl q hq
    obtain rfl : ip = b := Queue.head.inj (hname.2.symm.trans hbot)
    have hpos : 0 < s.linkblk.countP (holds l.l_index) :=
      countP_pos_iff.mpr ⟨l, hl, by simp [holds, hname.1]⟩
    have hc := hs.count l.l_index
    have hr := hs.refs l.l_index
    have hopen : 0 < (s.file l.l_index).f_count := by omega
    refine hlast ⟨l.l_index, hs.bound _ hopen, ?_, hopen, hfile⟩
    intro hi
    rw [hi] at hpos
    omega
  refine ⟨⟨hs.link, fun c => ?_, hs.count, hs.refs, fun j c hj hc hC => ?_, fun c hc => ?_,
    hs.bound, hs.acyclic⟩, ⟨fun _ _ h _ => h, Nat.le_refl _, rfl, rfl, fun _ => rfl,
    fun _ => Int.le_refl _, fun c hc => ?_⟩⟩
  · by_cases h : c = ip
    · rw [h, Mux.plex, hself]
      exact hnone
    · rw [Mux.plex, hstream c h]
      exact hs.plex c
  · rw [mem_cons, not_or] at hC
    rw [hstream c hC.1]
    exact hs.live j c hj hc hC.2
  · by_cases h : c = ip
    · rw [h, hself]
    · rw [hstream c h]
      exact hs.closing c ((mem_cons.mp hc).resolve_left h)
  · by_cases h : c = ip
    · rw [h, hself]
    · rw [hstream c h, hc]

/-- The device is closed, if the file has one and is the last that names it. -/
theorem Inv.closeDevice (ih : CloseSpec n (Sys.closef n)) (hs : Inv s (i :: P) C)
    (hn : s.used ≤ n) (h1 : (s.file i).f_count = 1) :
    ∃ t C', (match s.stream i with
        | none => some s
        | some ip =>
          if ∃ j < s.ve_file, j ≠ i ∧ 0 < (s.file j).f_count ∧ (s.file j).f_inode = some ip then
            some s
          else Sys.munlinkall (Sys.closef n) (.drv ip) true n [] (s.setStream ip none)) = some t ∧
      Inv t (i :: P) C' ∧ C ⊆ C' ∧ Shrinks t s ∧ Kept none t s ∧
      ∀ j ip, 0 < (t.file j).f_count → j ≠ i → (t.file j).f_inode = some ip → ip ∉ C →
        (t.i_sptr ip).isSome := by
  have hsame : ∀ j ip, 0 < (s.file j).f_count → j ≠ i → (s.file j).f_inode = some ip →
      ip ∉ C → (s.i_sptr ip).isSome := fun j ip hj _ hip hC => hs.live j ip hj hip hC
  cases hst : s.stream i with
  | none => exact ⟨s, C, rfl, hs, fun _ h => h, .refl s, .refl _ s, hsame⟩
  | some ip =>
    dsimp only
    split_ifs with hlast
    · exact ⟨s, C, rfl, hs, fun _ h => h, .refl s, .refl _ s, hsame⟩
    · obtain ⟨-, hopen⟩ : (s.file i).f_inode = some ip ∧ (s.i_sptr ip).isSome := by
        simpa [Sys.stream, filter_eq_some_iff] using hst
      obtain ⟨hinv, hsub⟩ := hs.strclose h1 hlast
      obtain ⟨t, ht, hinv', hsub', hkept⟩ := munlinkall_spec (a := ip) ih true n [] _ hinv hn hn
      have hgone : t.i_sptr ip = none := hinv'.closing ip mem_cons_self
      refine ⟨t, ip :: C, ht, hinv', fun _ h => mem_cons_of_mem _ h, hsub.trans hsub', ?_,
        fun j c hj hji hc hC => ?_⟩
      · -- the links of the stream itself, and those of streams below it
        intro k l hl hu
        rcases hkept k l hl hu with h | ⟨c, hc, ho | ⟨ho, hcl⟩⟩
        · exact .inl h
        · cases ho
          exact .inr ⟨ip, hc, .inr ⟨hopen, hgone⟩⟩
        · refine .inr ⟨c, hc, .inr ⟨?_, hcl⟩⟩
          cases hsc : s.i_sptr c with
          | some d => rfl
          | none =>
            rw [hsub.stream c hsc] at ho
            exact nomatch ho
      · refine hinv'.live j c hj hc fun hmem => ?_
        rcases mem_cons.mp hmem with rfl | hmem
        · refine hlast ⟨j, ?_, hji, Int.lt_of_lt_of_le hj ((hsub.trans hsub').f_count j), ?_⟩
          · exact (hsub.trans hsub').ve_file ▸ hinv'.bound j hj
          · exact (hsub.trans hsub').inode j ▸ hc
        · exact hC hmem

theorem closef_spec (n : ℕ) : CloseSpec n (Sys.closef n) := by
  induction n with
  | zero => exact fun s i P C _ h => absurd h (by omega)
  | succ n ih =>
    intro s i P C hs hn
    have hcount := hs.count i
    rw [count_cons_self] at hcount
    have hrefs := hs.refs i
    rw [Sys.closef, if_neg (by omega)]
    split_ifs with h1
    · have h := hs.drop (C := C) (fun _ h => h) fun j ip hj _ hip hC => hs.live j ip hj hip hC
      exact ⟨_, rfl, h.1, h.2, fun _ _ h _ => .inl h⟩
    · have h1 : (s.file i).f_count = 1 := by omega
      obtain ⟨t, C', ht, hinv, hC, hsub, hkept, hlive⟩ := hs.closeDevice ih (by omega) h1
      have hc := hinv.count i
      have hr := hinv.refs i
      have hle := hsub.f_count i
      rw [count_cons_self] at hc
      have hone : (t.file i).f_count = 1 := by push_cast at hc; omega
      have hd := hinv.drop hC fun j ip hj hji hip hip' =>
        hlive j ip hj (fun h => absurd (hji h) (by omega)) hip hip'
      rw [hone] at hd
      refine ⟨_, ?_, hd.1, hsub.trans hd.2, hkept.trans hsub (fun _ _ h _ => .inl h) hd.2⟩
      dsimp only
      rw [ht]
      rfl

/-! ## The other calls -/

/-- The entries that name one stream are one entry. -/
theorem Inv.one (hs : Inv s P C) (hl : l ∈ s.linkblk) (hl' : l' ∈ s.linkblk)
    (hn : names b l = true) (hn' : names b l' = true) : l = l' := by
  have hone : (s.linkblk.filter (names b)).length ≤ 1 := by
    rw [← countP_eq_length_filter, hs.plex]
    split_ifs <;> decide
  have hm := mem_filter.mpr ⟨hl, hn⟩
  have hm' := mem_filter.mpr ⟨hl', hn'⟩
  cases hf : s.linkblk.filter (names b) with
  | nil => rw [hf] at hm; exact absurd hm not_mem_nil
  | cons x xs =>
    rw [hf] at hone hm hm'
    obtain rfl : xs = [] := eq_nil_of_length_eq_zero (by simpa using hone)
    exact (mem_singleton.mp hm).trans (mem_singleton.mp hm').symm

/-- A stream that no link names leads nowhere back: nothing is below which it is. -/
theorem Inv.not_below (hs : Inv s P C) (hplex : Mux.plex s b = false) (hab : a ≠ b) :
    ¬ Relation.ReflTransGen (Under s) a b := by
  intro h
  rcases Relation.ReflTransGen.cases_tail h with h | ⟨c, -, l, hl, hq, hbot⟩
  · exact hab h.symm
  · have hc := hs.plex b
    rw [hplex, if_neg (by decide), countP_eq_zero] at hc
    exact hc l hl (by simp [names, hq, hbot])

section

variable (hs : Inv s [] [])

include hs

theorem Inv.open {ip : ℕ} {mux : Bool} (hi : i < s.ve_file)
    (hfree : (s.file i).f_count ≤ 0) (h : s.step (.open i ip mux) = some t) : Inv t [] [] := by
  have hcount := hs.count i
  have hrefs := hs.refs i
  rw [count_nil] at hcount
  have hnone : s.linkblk.countP (holds i) = 0 := by omega
  have hother : ∀ l ∈ s.linkblk, l.l_qtop.isSome → l.l_index ≠ i := by
    intro l hl hu hli
    rw [countP_eq_zero] at hnone
    exact hnone l hl (by simp [holds, hu, hli])
  obtain ⟨w, hw⟩ : ∃ w, w =
      Sys.setRefs { s with file := update s.file i ⟨1, some ip⟩ } i 1 := ⟨_, rfl⟩
  have hfi : w.file i = ⟨1, some ip⟩ := by rw [hw]; exact update_self ..
  have hfj : ∀ j, j ≠ i → w.file j = s.file j := by
    intro j hj; rw [hw]; exact update_of_ne hj ..
  have hri : w.refs i = 1 := by rw [hw]; exact update_self ..
  have hrj : ∀ j, j ≠ i → w.refs j = s.refs j := by
    intro j hj; rw [hw]; exact update_of_ne hj ..
  obtain ⟨hl, hv, hst⟩ : w.linkblk = s.linkblk ∧ w.ve_file = s.ve_file ∧ w.i_sptr = s.i_sptr := by
    subst hw; exact ⟨rfl, rfl, rfl⟩
  -- what does not depend on whether the device was open
  have hall : ∀ u : Sys, u.file = w.file → u.linkblk = w.linkblk → u.refs = w.refs →
      u.ve_file = w.ve_file → (u.i_sptr ip).isSome → Mux.plex u ip = Mux.plex s ip →
      (∀ c, c ≠ ip → u.i_sptr c = s.i_sptr c) → Inv u [] [] := by
    intro u huf hul hur huv hip hplex hsame
    refine ⟨fun l hm q hq => ?_, fun b => ?_, fun j => ?_, fun j => ?_, fun j c hj hc hC => ?_,
      fun _ h => (nomatch h), fun j hj => ?_, ?_⟩
    · rw [hul, hl] at hm
      rw [huf, hfj _ (hother l hm (by rw [hq]; rfl))]
      exact hs.link l hm q hq
    · rw [hul, hl]
      by_cases hb : b = ip
      · rw [hb, hplex]
        exact hs.plex ip
      · rw [Mux.plex, hsame b hb]
        exact hs.plex b
    · rw [huf, hur, hul, hl]
      by_cases hj : j = i
      · rw [hj, hfi, hri, hnone]
        rfl
      · rw [hfj j hj, hrj j hj]
        exact hs.count j
    · rw [hur]
      by_cases hj : j = i
      · rw [hj, hri]
        decide
      · rw [hrj j hj]
        exact hs.refs j
    · by_cases hcip : c = ip
      · rw [hcip]
        exact hip
      · rw [hsame c hcip]
        rw [huf] at hj hc
        have hji : j ≠ i := by
          rintro rfl
          rw [hfi] at hc
          exact hcip (Option.some.inj hc).symm
        rw [hfj j hji] at hj hc
        exact hs.live j c hj hc hC
    · rw [huf] at hj
      rw [huv, hv]
      by_cases hji : j = i
      · exact hji ▸ hi
      · rw [hfj j hji] at hj
        exact hs.bound j hj
    · exact hs.acyclic.mono fun x y ⟨m, hm, h⟩ => ⟨m, hl ▸ hul ▸ hm, h⟩
  rw [Sys.step, if_pos ⟨hi, hfree⟩] at h
  dsimp only at h
  rw [← hw, hst] at h
  cases hd : s.i_sptr ip with
  | some d =>
    rw [hd] at h
    rw [← Option.some.inj h]
    exact hall w rfl rfl rfl rfl (by rw [hst, hd]; rfl) (by rw [Mux.plex, Mux.plex, hst])
      fun c _ => by rw [hst]
  | none =>
    rw [hd] at h
    rw [← Option.some.inj h]
    refine hall _ rfl rfl rfl rfl ?_ ?_ fun c hc => ?_
    · show (update w.i_sptr ip _ ip).isSome
      rw [update_self]
      rfl
    · show (update w.i_sptr ip _ ip).any _ = _
      rw [update_self, Mux.plex, hd]
      rfl
    · exact (update_of_ne hc ..).trans (by rw [hst])

theorem Inv.dup (hi : 0 < s.refs i) (h : s.step (.dup i) = some t) :
    Inv t [] [] := by
  rw [Sys.step, if_pos hi] at h
  cases h
  have hfile : ∀ j, (update s.file i
      { s.file i with f_count := (s.file i).f_count + 1 } j).f_inode = (s.file j).f_inode := by
    intro j
    rw [update_apply]
    split_ifs with hj
    · rw [hj]
    · rfl
  have hcount := hs.count i
  have hopen : ∀ j, 0 < (update s.file i
      { s.file i with f_count := (s.file i).f_count + 1 } j).f_count →
      0 < (s.file j).f_count := by
    intro j hj
    by_cases hji : j = i
    · rw [hji]
      rw [count_nil] at hcount
      omega
    · rwa [update_of_ne hji] at hj
  refine ⟨fun l hm q hq => ?_, hs.plex, fun j => ?_, fun j => ?_, fun j c hj hc hC => ?_,
    fun _ h => (nomatch h), fun j hj => hs.bound j (hopen j hj), hs.acyclic⟩
  · obtain ⟨a, b, hqa, hbot, hin⟩ := hs.link l hm q hq
    exact ⟨a, b, hqa, hbot, (hfile _).trans hin⟩
  · show (update s.file i _ j).f_count = update s.refs i _ j + _ + _
    by_cases hj : j = i
    · rw [hj, update_self, update_self]
      dsimp only
      rw [hcount]
      show _ = s.refs i + 1 + (s.linkblk.countP (holds i) : ℤ) + _
      omega
    · rw [update_of_ne hj, update_of_ne hj]
      exact hs.count j
  · show 0 ≤ update s.refs i _ j
    rw [update_apply]
    split_ifs with hj
    · omega
    · exact hs.refs j
  · exact hs.live j c (hopen j hj) ((hfile j).symm.trans hc) hC

/-- The reference of a process that closes a file becomes that of the close. -/
theorem Inv.release (hi : 0 < s.refs i) :
    Inv (s.setRefs i (s.refs i - 1)) [i] [] := by
  refine ⟨hs.link, hs.plex, fun j => ?_, fun j => ?_, hs.live, fun _ h => (nomatch h), hs.bound,
    hs.acyclic⟩
  · show (s.file j).f_count = update s.refs i _ j + _ + _
    have hcount := hs.count j
    by_cases hj : j = i
    · rw [hj] at hcount ⊢
      rw [update_self, count_cons_self]
      show (s.file i).f_count = s.refs i - 1 + (s.linkblk.countP (holds i) : ℤ) + _
      rw [count_nil] at hcount ⊢
      push_cast
      omega
    · rw [update_of_ne hj, count_cons_of_ne (Ne.symm hj)]
      exact hcount
  · show 0 ≤ update s.refs i _ j
    rw [update_apply]
    split_ifs with hj
    · omega
    · exact hs.refs j

/-- **A close returns** and keeps the links. -/
theorem Inv.close (hi : 0 < s.refs i) :
    ∃ t, s.step (.close i) = some t ∧ Inv t [] [] := by
  obtain ⟨t, ht, hinv, -⟩ := closef_spec (s.used + 1) _ i [] [] (hs.release hi) (Nat.lt_succ_self _)
  exact ⟨t, by rw [Sys.step, if_pos hi, ht], hinv⟩

/-- Storing a stream with the same `STPLEX`. -/
theorem Inv.setStream {d d' : Stdata} (hd : s.i_sptr b = some d)
    (hp : d'.STPLEX = d.STPLEX) : Inv (s.setStream b (some d')) [] [] := by
  have hplex : ∀ c, Mux.plex (s.setStream b (some d')) c = Mux.plex s c := by
    intro c
    show (update s.i_sptr b _ c).any _ = (s.i_sptr c).any _
    rw [update_apply]
    split_ifs with hc
    · rw [hc, hd]
      exact hp
    · rfl
  refine ⟨hs.link, fun c => by rw [hplex]; exact hs.plex c, hs.count, hs.refs,
    fun j c hj hc hC => ?_, fun _ h => (nomatch h), hs.bound, hs.acyclic⟩
  show (update s.i_sptr b _ c).isSome
  rw [update_apply]
  split_ifs with hcb
  · rfl
  · exact hs.live j c hj hc hC

/-- A free entry may be stored into, and stays free. -/
theorem Inv.setFree (hk : s.linkblk[k]? = some l) (hfree : l.l_qtop = none)
    (hfree' : l'.l_qtop = none) : Inv (s.setLink k l') [] [] := by
  have hmem : ∀ x ∈ s.linkblk.set k l', ∀ q, x.l_qtop = some q → x ∈ s.linkblk := by
    intro x hx q hq
    rcases mem_or_eq_of_mem_set hx with h | rfl
    · exact h
    · rw [hfree'] at hq
      exact nomatch hq
  have hcount : ∀ p : Linkblk → Bool, (∀ x : Linkblk, x.l_qtop = none → p x = false) →
      (s.linkblk.set k l').countP p = s.linkblk.countP p := by
    intro p hp
    have h := count_set p l' hk
    rw [hp l hfree, hp l' hfree'] at h
    exact h
  refine ⟨fun x hx q hq => hs.link x (hmem x hx q hq) q hq, fun b => ?_, fun i => ?_, hs.refs,
    hs.live, fun _ h => (nomatch h), hs.bound, ?_⟩
  · exact (hcount (names b) fun x hx => by simp [names, hx]).trans (hs.plex b)
  · show (s.file i).f_count = s.refs i + ((s.linkblk.set k l').countP (holds i) : ℤ) + _
    rw [hcount (holds i) fun x hx => by simp [holds, hx]]
    exact hs.count i
  · exact hs.acyclic.mono fun x y ⟨m, hm, h1, h2⟩ => ⟨m, hmem m hm _ h1, h1, h2⟩

/-- **A link is made** of a stream with no `STPLEX` under another one. -/
theorem Inv.newLink {d : Stdata} (hk : s.linkblk[k]? = some l)
    (hfree : l.l_qtop = none) (ha : Mux.plex s a = false) (hd : s.i_sptr b = some d)
    (hp : d.STPLEX = false) (hab : b ≠ a) (hfile : (s.file i).f_inode = some b)
    (hi : 0 < s.refs i) :
    Inv (((s.setLink k ⟨some (.drv a), .head b, i⟩).setStream b
      (some { d with STPLEX := true })).setCount i ((s.file i).f_count + 1)) [] [] := by
  obtain ⟨t, ht⟩ : ∃ t, t = ((s.setLink k ⟨some (.drv a), .head b, i⟩).setStream b
    (some { d with STPLEX := true })).setCount i ((s.file i).f_count + 1) := ⟨_, rfl⟩
  rw [← ht]
  obtain ⟨hl, hr, hv⟩ : t.linkblk = s.linkblk.set k ⟨some (.drv a), .head b, i⟩ ∧
      t.refs = s.refs ∧ t.ve_file = s.ve_file := by subst ht; exact ⟨rfl, rfl, rfl⟩
  have hstream : t.i_sptr b = some { d with STPLEX := true } := by
    rw [ht]; exact update_self ..
  have hstream' : ∀ c, c ≠ b → t.i_sptr c = s.i_sptr c := by
    intro c hc; rw [ht]; exact update_of_ne hc ..
  have hself : t.file i = ⟨(s.file i).f_count + 1, (s.file i).f_inode⟩ := by
    rw [ht]; exact update_self ..
  have hne : ∀ j, j ≠ i → t.file j = s.file j := by
    intro j hj; rw [ht]; exact update_of_ne hj ..
  have hinode : ∀ j, (t.file j).f_inode = (s.file j).f_inode := by
    intro j
    by_cases hj : j = i
    · rw [hj, hself]
    · rw [hne j hj]
  have hci := hs.count i
  rw [count_nil] at hci
  have hopen : ∀ j, 0 < (t.file j).f_count → 0 < (s.file j).f_count := by
    intro j hj
    by_cases hji : j = i
    · rw [hji]
      omega
    · rwa [hne j hji] at hj
  have hmem : ∀ x ∈ t.linkblk, x ∈ s.linkblk ∨ x = ⟨some (.drv a), .head b, i⟩ :=
    fun x hx => mem_or_eq_of_mem_set (hl ▸ hx)
  have hcount : ∀ p : Linkblk → Bool, (∀ x : Linkblk, x.l_qtop = none → p x = false) →
      t.linkblk.countP p =
        s.linkblk.countP p + if p ⟨some (.drv a), .head b, i⟩ then 1 else 0 := by
    intro p hp
    have h := count_set p ⟨some (.drv a), .head b, i⟩ hk
    rw [hp l hfree] at h
    rw [hl]
    exact h
  refine ⟨fun x hx q hq => ?_, fun c => ?_, fun j => ?_, hr ▸ hs.refs, fun j c hj hc hC => ?_,
    fun _ h => (nomatch h), fun j hj => hv ▸ hs.bound j (hopen j hj), ?_⟩
  · rw [hinode]
    rcases hmem x hx with h | rfl
    · exact hs.link x h q hq
    · exact ⟨a, b, (Option.some.inj hq).symm, rfl, hfile⟩
  · rw [hcount (names c) fun x hx => by simp [names, hx]]
    have hold := hs.plex c
    by_cases hc : c = b
    · rw [hc] at hold ⊢
      rw [show Mux.plex s b = false by rw [Mux.plex, hd]; exact hp, if_neg (by decide)] at hold
      rw [hold, Mux.plex, hstream]
      simp [names]
    · have hname : names c ⟨some (.drv a), .head b, i⟩ = false := by
        simp [names, Ne.symm hc]
      rw [hname, Mux.plex, hstream' c hc]
      exact hold
  · rw [hcount (holds j) fun x hx => by simp [holds, hx], hr]
    have hold := hs.count j
    by_cases hj : j = i
    · rw [hj] at hold ⊢
      rw [hself, show holds i ⟨some (.drv a), .head b, i⟩ = true by simp [holds], if_pos rfl]
      dsimp only
      push_cast
      omega
    · have hhold : holds j ⟨some (.drv a), .head b, i⟩ = false := by
        simp [holds, Ne.symm hj]
      rw [hne j hj, hhold]
      exact hold
  · by_cases hcb : c = b
    · rw [hcb, hstream]
      rfl
    · rw [hstream' c hcb]
      exact hs.live j c (hopen j hj) (hinode j ▸ hc) hC
  · -- the upper stream is below nothing, so no circle is closed
    refine acyclic_of_new hs.acyclic (p := a) (q := b) ?_ (hs.not_below ha hab)
    rintro x y ⟨m, hm, h1, h2⟩
    rcases hmem m hm with h | rfl
    · exact .inl ⟨m, h, h1, h2⟩
    · exact .inr ⟨(Queue.drv.inj (Option.some.inj h1)).symm, (Queue.head.inj h2).symm⟩

omit hs in
/-- **The search for cycles finds none**: what the entries have at the top is no queue of a
stream head. -/
theorem Inv.linkcycle_false (hs : Inv s P C) (qup : Queue) :
    linkcycle s.linkblk qup n (.head b) = false := by
  cases n with
  | zero => rfl
  | succ n =>
    rw [linkcycle, List.any_eq_false]
    intro l hl h
    obtain ⟨a, -, hq, -⟩ := hs.link l hl _ (of_decide_eq_true h).1
    exact nomatch hq

theorem Inv.iLink {ok : Bool} (ha : Mux.plex s a = false)
    (hfile : (s.file i).f_inode = some b) (hi : 0 < s.refs i) : Inv (s.iLink a b i ok) [] [] := by
  unfold Sys.iLink
  split
  · rename_i up down _ hd
    split
    · exact hs
    · split
      · exact hs
      · rename_i h
        simp only [not_or] at h
        cases hk : alloclink s.linkblk with
        | none => exact hs
        | some k =>
          obtain ⟨hlt, hp, -⟩ := List.findIdx?_eq_some_iff_getElem.mp hk
          have hkl := List.getElem?_eq_getElem hlt
          dsimp only
          split
          · exact hs.newLink hkl (of_decide_eq_true hp) ha hd (by simpa using h.2.1) h.1 hfile hi
          · exact hs.setFree hkl (of_decide_eq_true hp) rfl
  · exact hs

end

end inv

/-! ## Whole runs -/

/-- The link that `I_UNLINK` of `arg` can find is one of the stream that asks for it, made with the
file of that index; -1 stands for all links of the stream. -/
def Meets (s : Sys) : MuxEvent → Prop
  | .unlink up arg oks => ∀ a b, s.stream up = some a → s.stream arg.toNat = some b →
      arg ≠ -1 → oks.headD true = true →
      (∃ l ∈ s.linkblk, l.l_qtop.isSome ∧ l.l_qbot = .head b ∧ (arg = 0 ∨ l.l_index = arg)) →
      ∃ l ∈ s.linkblk, l.l_qtop = some (.drv a) ∧ l.l_index = arg
  | _ => True

section run

variable {s t : Sys} {a up : ℕ} {arg : ℤ} {oks : List Bool}

theorem stream_eq_some {i b : ℕ} (h : s.stream i = some b) :
    (s.file i).f_inode = some b ∧ (s.i_sptr b).isSome := by
  simpa [Sys.stream, filter_eq_some_iff] using h

/-- The link found is the one of the calling stream with that index. -/
theorem Inv.found_own (hs : Inv s [] []) (hC : Meets s (.unlink up arg oks))
    (ha : s.stream up = some a) (harg : arg ≠ -1) (hok : oks.headD true = true) {k : ℕ}
    (hf : s.found arg = some k) :
    ∃ l, s.linkblk[k]? = some l ∧ l.l_qtop = some (.drv a) ∧ l.l_index = arg.toNat := by
  unfold Sys.found at hf
  split at hf
  · rename_i hrange
    split at hf
    · exact nomatch hf
    · rename_i b hb
      split at hf
      · obtain ⟨l, hk, hu, -, hbot, hidx⟩ := findlinks_some hf
        have hbot : l.l_qbot = .head b := by
          rcases hbot with h | h
          · exact nomatch h
          · exact (Option.some.inj h).symm
        have hl := mem_of_getElem? hk
        obtain ⟨x, hx, hq, hxi⟩ := hC a b ha hb harg hok ⟨l, hl, hu, hbot, by omega⟩
        obtain ⟨a', b', hqa, hxbot, hxf⟩ := hs.link x hx _ hq
        rw [show x.l_index = arg.toNat by omega, (stream_eq_some hb).1] at hxf
        cases hxf
        obtain rfl := hs.one hx hl (b := b) (by simp [names, hq, hxbot]) (by simp [names, hu, hbot])
        exact ⟨x, hk, hq, by omega⟩
      · exact nomatch hf
  · exact nomatch hf

/-- **An unlink returns**, and takes away links of the calling stream only, or of streams that it
closed. -/
theorem Inv.unlink (hs : Inv s [] []) (hC : Meets s (.unlink up arg oks)) (hup : 0 < s.refs up) :
    ∃ t, s.step (.unlink up arg oks) = some t ∧ Inv t [] [] ∧ Kept (s.stream up) t s := by
  rw [Sys.step, if_pos hup]
  cases ha : s.stream up with
  | none => exact ⟨s, rfl, hs, .refl _ s⟩
  | some a =>
    dsimp only
    split
    · exact ⟨s, rfl, hs, .refl _ s⟩
    · unfold Sys.iUnlink
      split
      · exact ⟨s, rfl, hs, .refl _ s⟩
      · split
        · exact ⟨s, rfl, hs, .refl _ s⟩
        · have hclose := closef_spec (s.used + 1)
          split
          · obtain ⟨t, ht, hinv, -, hkept⟩ :=
              munlinkall_spec (a := a) hclose false s.used oks s hs (Nat.le_succ _) (Nat.le_refl _)
            exact ⟨t, ht, hinv, hkept⟩
          · rename_i harg
            cases hf : s.found arg with
            | none => exact ⟨s, rfl, hs, .refl _ s⟩
            | some k =>
              dsimp only
              split
              · rename_i hok
                obtain ⟨l, hk, hq, hidx⟩ := hs.found_own hC ha harg hok hf
                obtain ⟨t, ht, hinv, -, hkept, -⟩ :=
                  munlink_spec hclose hs (Nat.le_succ _) hk hq
                exact ⟨t, hidx ▸ ht, hinv, hkept⟩
              · exact ⟨s, rfl, hs, .refl _ s⟩

/-- What one call keeps. -/
theorem Inv.step {e : MuxEvent} (hs : Inv s [] []) (hC : Meets s e) (h : s.step e = some t) :
    Inv t [] [] := by
  cases e with
  | «open» i ip mux =>
    by_cases hi : i < s.ve_file ∧ (s.file i).f_count ≤ 0
    · exact hs.open hi.1 hi.2 h
    · rw [Sys.step, if_neg hi] at h
      exact nomatch h
  | dup i =>
    by_cases hi : 0 < s.refs i
    · exact hs.dup hi h
    · rw [Sys.step, if_neg hi] at h
      exact nomatch h
  | close i =>
    by_cases hi : 0 < s.refs i
    · obtain ⟨u, hu, hinv⟩ := hs.close hi
      cases hu.symm.trans h
      exact hinv
    · rw [Sys.step, if_neg hi] at h
      exact nomatch h
  | flags ip hup err ioc =>
    rw [Sys.step, map_eq_some_iff] at h
    obtain ⟨d, hd, rfl⟩ := h
    exact hs.setStream hd rfl
  | link up i ok =>
    rw [Sys.step] at h
    split at h
    · rename_i href
      split at h
      · rename_i a b ha hb
        split at h
        · cases h
          exact hs
        · rename_i hflag
          cases h
          refine hs.iLink ?_ (stream_eq_some hb).1 href.2
          cases hd : s.i_sptr a with
          | none => rw [Mux.plex, hd]; rfl
          | some d =>
            rw [hd] at hflag
            simp only [any_some, decide_eq_true_eq, not_or] at hflag
            rw [Mux.plex, hd]
            simpa using hflag.2
      · cases h
        exact hs
    · exact nomatch h
  | unlink up arg oks =>
    by_cases hup : 0 < s.refs up
    · obtain ⟨u, hu, hinv, -⟩ := hs.unlink hC hup
      cases hu.symm.trans h
      exact hinv
    · rw [Sys.step, if_neg hup] at h
      exact nomatch h

/-- No file is open, and the tables have room for `ve_file` files and `nmuxlink` links. -/
def Sys.start (ve_file nmuxlink : ℕ) : Sys :=
  ⟨fun _ => ⟨0, none⟩, ve_file, fun _ => none, List.replicate nmuxlink ⟨none, .head 0, 0⟩,
    fun _ => 0⟩

theorem Inv.start (ve_file nmuxlink : ℕ) : Inv (Sys.start ve_file nmuxlink) [] [] := by
  have hfree : ∀ l ∈ (Sys.start ve_file nmuxlink).linkblk, l.l_qtop = none := by
    intro l hl
    rw [eq_of_mem_replicate hl]
  have hcount : ∀ p : Linkblk → Bool, (∀ x : Linkblk, x.l_qtop = none → p x = false) →
      (Sys.start ve_file nmuxlink).linkblk.countP p = 0 := by
    intro p hp
    rw [countP_eq_zero]
    intro l hl
    simp [hp l (hfree l hl)]
  refine ⟨fun l hl q hq => ?_, fun b => ?_, fun i => ?_, fun _ => Int.le_refl _,
    fun _ _ h => absurd h (Int.lt_irrefl 0), fun _ h => (nomatch h),
    fun _ h => absurd h (Int.lt_irrefl 0), fun a h => ?_⟩
  · rw [hfree l hl] at hq
    exact nomatch hq
  · exact hcount (names b) fun x hx => by simp [names, hx]
  · rw [hcount (holds i) fun x hx => by simp [holds, hx]]
    rfl
  · obtain ⟨b, ⟨l, hl, hq, -⟩, -⟩ := Relation.TransGen.head'_iff.mp h
    rw [hfree l hl] at hq
    exact nomatch hq

/-- **Links of multiplexors.**  In every sequence of calls whose unlinks by index name a link of the
calling stream: the links form no cycle, a stream has `STPLEX` when one entry names its write queue
and no entry does otherwise, and each entry holds one reference on its file.  An unlink that meets
the condition then returns, and the links it takes away are those of the calling stream and of
streams that it closed. -/
theorem links_run {ve_file nmuxlink : ℕ} {es : List MuxEvent}
    (hC : StepsMeet Meets Sys.step (Sys.start ve_file nmuxlink) es)
    (h : exec Sys.step (Sys.start ve_file nmuxlink) es = some t) :
    Acyclic (Under t) ∧
    (∀ b, t.linkblk.countP (names b) = if plex t b then 1 else 0) ∧
    (∀ i, (t.file i).f_count = t.refs i + t.linkblk.countP (holds i)) ∧
    ∀ up arg oks, 0 < t.refs up → Meets t (.unlink up arg oks) →
      ∃ u, t.step (.unlink up arg oks) = some u ∧ Kept (t.stream up) u t := by
  have hinv : Inv t [] [] := exec_invariant (P := fun s : Sys => Inv s [] [])
    (fun _ _ _ hs hC h => hs.step hC h) (Inv.start ve_file nmuxlink) hC h
  refine ⟨hinv.acyclic, hinv.plex, fun i => ?_, fun up arg oks hup hC => ?_⟩
  · have hc := hinv.count i
    rw [count_nil] at hc
    omega
  · obtain ⟨u, hu, -, hkept⟩ := hinv.unlink hC hup
    exact ⟨u, hu, hkept⟩

/-- **The search for cycles finds none**: in every state that such calls reach `linkcycle` answers 0,
whatever is to be linked where.  The queues at the top of the entries are those of drivers, and it
looks for that of a stream head. -/
theorem linkcycle_blind {ve_file nmuxlink : ℕ} {es : List MuxEvent}
    (hC : StepsMeet Meets Sys.step (Sys.start ve_file nmuxlink) es)
    (h : exec Sys.step (Sys.start ve_file nmuxlink) es = some t) (qup : Queue) (n b : ℕ) :
    linkcycle t.linkblk qup n (.head b) = false :=
  (exec_invariant (P := fun s : Sys => Inv s [] []) (fun _ _ _ hs hC h => hs.step hC h)
    (Inv.start ve_file nmuxlink) hC h).linkcycle_false qup

end run

/-- Stream 2 is linked under the driver of stream 1. -/
def linkRun : List MuxEvent := [.open 1 1 true, .open 2 2 false, .open 3 3 true, .link 1 2 true]

/-- The stream that made the link removes it. -/
theorem links_run_own : ∃ t u, exec Sys.step (Sys.start 4 2) linkRun = some t ∧
    Acyclic (Under t) ∧ t.step (.unlink 1 2 [true]) = some u ∧ Kept (t.stream 1) u t := by
  have hC : StepsMeet Meets Sys.step (Sys.start 4 2) linkRun :=
    stepsMeet_of_forall fun e he s => by
      simp only [linkRun, mem_cons, not_mem_nil, or_false] at he
      rcases he with rfl | rfl | rfl | rfl <;> trivial
  have hrun : (exec Sys.step (Sys.start 4 2) linkRun).any (fun t =>
      decide (0 < t.refs 1 ∧ t.stream 1 = some 1 ∧
        (⟨some (.drv 1), .head 2, 2⟩ : Linkblk) ∈ t.linkblk)) = true := by decide +kernel
  obtain ⟨t, ht, hd⟩ := (Option.any_eq_true _ _).mp hrun
  obtain ⟨href, hst, hl⟩ := of_decide_eq_true hd
  obtain ⟨hacyc, -, -, hun⟩ := links_run hC ht
  obtain ⟨u, hu, hkept⟩ := hun 1 2 [true] href fun a b ha _ _ _ _ => by
    cases hst.symm.trans ha
    exact ⟨_, hl, rfl, rfl⟩
  exact ⟨t, u, ht, hacyc, hu, hkept⟩

/-- Stream 1 is above stream 2, which it would be linked under. -/
theorem linkcycle_blind_above : ∃ t, exec Sys.step (Sys.start 4 2) linkRun = some t ∧
    Under t 1 2 ∧ linkcycle t.linkblk (.drv 2) 3 (.head 1) = false := by
  have hC : StepsMeet Meets Sys.step (Sys.start 4 2) linkRun :=
    stepsMeet_of_forall fun e he s => by
      simp only [linkRun, mem_cons, not_mem_nil, or_false] at he
      rcases he with rfl | rfl | rfl | rfl <;> trivial
  have hrun : exec Sys.step (Sys.start 4 2) linkRun = some _ := rfl
  exact ⟨_, hrun, ⟨_, .head _, rfl, rfl⟩, linkcycle_blind hC hrun _ _ _⟩

/-- Any other stream with a multiplexor removes it as well. -/
theorem links_foreign : ∃ t u, exec Sys.step (Sys.start 4 2) linkRun = some t ∧
    t.step (.unlink 3 2 [true]) = some u ∧ ¬ Kept (t.stream 3) u t := by
  have hrun : (exec Sys.step (Sys.start 4 2) linkRun).any (fun t =>
      (t.step (.unlink 3 2 [true])).any fun u =>
        decide (t.stream 3 = some 3 ∧ t.linkblk[0]? = some ⟨some (.drv 1), .head 2, 2⟩ ∧
          u.linkblk[0]? = some ⟨none, .head 2, 2⟩ ∧ (u.i_sptr 1).isSome)) = true := by
    decide +kernel
  obtain ⟨t, ht, hd⟩ := (Option.any_eq_true _ _).mp hrun
  obtain ⟨u, hu, hd⟩ := (Option.any_eq_true _ _).mp hd
  obtain ⟨hst, hl, hl', hopen⟩ := of_decide_eq_true hd
  refine ⟨t, u, ht, hu, fun hkept => ?_⟩
  rw [hst] at hkept
  rcases hkept 0 _ hl rfl with h | ⟨c, hc, h | ⟨-, h⟩⟩
  · rw [hl'] at h
    exact nomatch h
  · cases h
    exact nomatch hc
  · cases hc
    rw [h] at hopen
    exact nomatch hopen

end Io.Mux
