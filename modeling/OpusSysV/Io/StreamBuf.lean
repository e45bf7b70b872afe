import OpusSysV.Lib.Run
import OpusSysV.Io.Stream

/-!
# Message blocks and data blocks: the allocator of `io/stream.c`

A message block points to a data block; duplicates of a message block point to the same
one, which counts them in the unsigned char `db_ref`.  Message blocks wait on
`mbfreelist`, data blocks on the free list of their class.

* `Pool`: the blocks, their free lists and the allocation counts;
* the routines `allocb`, `dupb`, `copyb`, `freeb` on one block, and their loops over the
  blocks of a message;
* `BufCall` and `Pool.step`, any sequence of calls on live messages.

Usage statistics and the functions waiting for buffers do not touch blocks and are left
out.
-/

namespace Io

open Lib Function

/-- The size of a block of each class. -/
def rbsize : Fin 12 → ℤ := ![4, 16, 64, 128, 256, 592, 1104, 2128, 4176, 8272, 16464, 32848]

def BPRI_LO : ℕ := 1
def BPRI_MED : ℕ := 2
def BPRI_HI : ℕ := 3

/-- `getclass(size)`, `none` for `NCLASS`. -/
def getclass (size : ℤ) : Option (Fin 12) := (List.finRange 12).find? fun c => size ≤ rbsize c

/-- `straln(a)`. -/
def straln (a : ℕ) : ℕ := a / 4 * 4

/-- The message blocks `M` and the data blocks `D`: the free lists; `b_cont`, `b_datap`
and the two pointers of a message block, counted from `db_base`; the reference count,
type, class, size and bytes of a data block; the allocation counts and cutoffs. -/
structure Pool (M D : Type) where
  mbfreelist : List M
  dbfreelist : Fin 12 → List D
  cont : M → Option M
  datap : M → Option D
  rptr : M → ℕ
  wptr : M → ℕ
  dbRef : D → UInt8
  dbType : D → ℕ
  dbClass : D → Fin 12
  dbSize : D → ℕ
  data : D → ℕ → UInt8
  dbaCnt : Fin 12 → ℤ
  dbaLo : Fin 12 → ℤ
  dbaMed : Fin 12 → ℤ
  nmblock : ℤ

namespace Pool

variable {M D : Type} [DecidableEq M] [DecidableEq D]

/-- `bcmax(class, pri)`. -/
def bcmax (s : Pool M D) (c : Fin 12) (pri : ℕ) : ℤ :=
  if pri = BPRI_LO then s.dbaLo c else if pri = BPRI_HI then s.nmblock else s.dbaMed c

/-- `(dballoc[class].dba_cnt < bcmax(class,pri)) && (databp = dbfreelist[class])`. -/
def offer (s : Pool M D) (pri : ℕ) (c : Fin 12) : Option D :=
  if s.dbaCnt c < s.bcmax c pri then (s.dbfreelist c).head? else none

/-- `allocb` from the label `gotdp` on. -/
def gotdp (s : Pool M D) (c : Fin 12) (d : D) : Option (M × Pool M D) :=
  match s.mbfreelist with
  | [] => none
  | bp :: rest => some (bp, { s with
      mbfreelist := rest
      dbfreelist := update s.dbfreelist c (s.dbfreelist c).tail
      dbaCnt := update s.dbaCnt c (s.dbaCnt c + 1)
      cont := update s.cont bp none
      datap := update s.datap bp (some d)
      rptr := update s.rptr bp 0
      wptr := update s.wptr bp 0
      dbType := update s.dbType d M_DATA
      dbRef := update s.dbRef d 1 })

/-- `allocb(size, pri)`. -/
def allocb (s : Pool M D) (size : ℤ) (pri : ℕ) : Option (M × Pool M D) :=
  (getclass size).bind fun c =>
    match s.offer pri c with
    | some d => s.gotdp c d
    | none =>
      if h : c.val + 1 < 12 then
        (s.offer pri ⟨c.val + 1, h⟩).bind fun d => s.gotdp ⟨c.val + 1, h⟩ d
      else none

/-- `freeb(bp)`. -/
def freeb (s : Pool M D) (bp : M) : Pool M D :=
  match s.datap bp with
  | none => s
  | some d =>
    let c := s.dbClass d
    let t := if s.dbRef d - 1 = 0 then
        { s with
          dbfreelist := update s.dbfreelist c (d :: s.dbfreelist c)
          dbaCnt := update s.dbaCnt c (s.dbaCnt c - 1) }
      else s
    { t with
      dbRef := update s.dbRef d (s.dbRef d - 1)
      datap := update s.datap bp none
      mbfreelist := bp :: s.mbfreelist }

/-- `freemsg` of the message with these blocks. -/
def freemsg : List M → Pool M D → Pool M D
  | [], s => s
  | bp :: rest, s => freemsg rest (s.freeb bp)

/-- `dupb(bp)`. -/
def dupb (s : Pool M D) (bp : M) : Option (M × Pool M D) :=
  match s.mbfreelist, s.datap bp with
  | nbp :: rest, some d => some (nbp, { s with
      mbfreelist := rest
      cont := update s.cont nbp none
      rptr := update s.rptr nbp (s.rptr bp)
      wptr := update s.wptr nbp (s.wptr bp)
      datap := update s.datap nbp (some d)
      dbRef := update s.dbRef d (s.dbRef d + 1) })
  | _, _ => none

/-- `copyb(bp)`. -/
def copyb (s : Pool M D) (bp : M) : Option (M × Pool M D) :=
  (s.datap bp).bind fun dp =>
    (s.allocb (s.dbSize dp) BPRI_MED).bind fun (nbp, t) =>
      (t.datap nbp).map fun ndp =>
        let base := straln (s.rptr bp)
        let top := straln (s.wptr bp + 3)
        (nbp, { t with
          dbType := update t.dbType ndp (s.dbType dp)
          rptr := update t.rptr nbp (s.rptr bp)
          wptr := update t.wptr nbp (s.wptr bp)
          data := update t.data ndp fun i =>
            if base ≤ i ∧ i < top then s.data dp i else t.data ndp i })

/-- The loop of `dupmsg` and `copymsg`, which differ in the routine `f` for one block:
`nbp` is the last block of the new message, `done` are all of them. -/
def msgLoop (f : Pool M D → M → Option (M × Pool M D)) (nbp : M) (done : List M) :
    List M → Pool M D → Bool × Pool M D
  | [], s => (true, s)
  | bp :: rest, s =>
    match f s bp with
    | none => (false, freemsg done { s with cont := update s.cont nbp none })
    | some (b, t) =>
      msgLoop f b (done ++ [b]) rest { t with cont := update t.cont nbp (some b) }

/-- `dupmsg` and `copymsg` of the message with these blocks: whether it was duplicated. -/
def msgCopy (f : Pool M D → M → Option (M × Pool M D)) (msg : List M) (s : Pool M D) :
    Bool × Pool M D :=
  match msg with
  | [] => (false, s)
  | bp :: rest =>
    match f s bp with
    | none => (false, s)
    | some (head, t) => msgLoop f head [head] rest t

/-- `dupmsg(bp)`. -/
def dupmsg (msg : List M) (s : Pool M D) : Bool × Pool M D := msgCopy dupb msg s

/-- `copymsg(bp)`. -/
def copymsg (msg : List M) (s : Pool M D) : Bool × Pool M D := msgCopy copyb msg s

/-- The blocks are linked by `b_cont`, the last one to none. -/
def Linked (s : Pool M D) : List M → Prop
  | [] => True
  | [b] => s.cont b = none
  | b :: b' :: rest => s.cont b = some b' ∧ s.Linked (b' :: rest)

instance (s : Pool M D) : ∀ l, Decidable (s.Linked l)
  | [] => inferInstanceAs (Decidable True)
  | [b] => inferInstanceAs (Decidable (s.cont b = none))
  | _ :: b' :: rest =>
    have := instDecidableLinked s (b' :: rest)
    inferInstanceAs (Decidable (_ ∧ _))

/-- A live message: different blocks, none of them free, linked by `b_cont`. -/
def IsMsg (s : Pool M D) (l : List M) : Prop :=
  l.Nodup ∧ (∀ b ∈ l, b ∉ s.mbfreelist) ∧ s.Linked l

instance (s : Pool M D) (l : List M) : Decidable (s.IsMsg l) :=
  inferInstanceAs (Decidable (_ ∧ _ ∧ _))

end Pool

/-- The calls on the pool, and what the owner of a block may do with it: link and unlink
messages, move the pointers, change the type and the bytes. -/
inductive BufCall (M : Type)
  | allocb (size : ℤ) (pri : ℕ)
  | dupb (bp : M)
  | dupmsg (msg : List M)
  | copyb (bp : M)
  | copymsg (msg : List M)
  | freeb (bp : M)
  | freemsg (msg : List M)
  | linkb (mp bp : List M)
  | unlinkb (bp : M)
  | edit (bp : M) (rptr wptr type : ℕ) (bytes : ℕ → UInt8)

variable {M D : Type} [DecidableEq M] [DecidableEq D]

/-- `linkb(mp, bp)` for the messages with these blocks. -/
def Pool.linkb (s : Pool M D) (mp bp : List M) : Pool M D :=
  match mp.getLast? with
  | none => s
  | some last => { s with cont := update s.cont last bp.head? }

/-- The owner of a block changes it. -/
def Pool.edit (s : Pool M D) (bp : M) (rptr wptr type : ℕ) (bytes : ℕ → UInt8) : Pool M D :=
  match s.datap bp with
  | none => s
  | some d => { s with
      rptr := update s.rptr bp rptr
      wptr := update s.wptr bp wptr
      dbType := update s.dbType d type
      data := update s.data d bytes }

/-- One call; `none` if it is given blocks that are not live. -/
def Pool.step (s : Pool M D) : BufCall M → Option (Pool M D)
  | .allocb size pri => some (((s.allocb size pri).map Prod.snd).getD s)
  | .dupb bp => if bp ∈ s.mbfreelist then none else some (((s.dupb bp).map Prod.snd).getD s)
  | .dupmsg msg => if s.IsMsg msg then some (Pool.dupmsg msg s).2 else none
  | .copyb bp => if bp ∈ s.mbfreelist then none else some (((s.copyb bp).map Prod.snd).getD s)
  | .copymsg msg => if s.IsMsg msg then some (Pool.copymsg msg s).2 else none
  | .freeb bp => if bp ∈ s.mbfreelist then none else some (s.freeb bp)
  | .freemsg msg => if s.IsMsg msg then some (Pool.freemsg msg s) else none
  | .linkb mp bp => if s.IsMsg mp ∧ s.IsMsg bp then some (s.linkb mp bp) else none
  | .unlinkb bp =>
    if bp ∈ s.mbfreelist then none else some { s with cont := update s.cont bp none }
  | .edit bp rptr wptr type bytes =>
    if bp ∈ s.mbfreelist then none else some (s.edit bp rptr wptr type bytes)

end Io
