import Mathlib.Data.Int.Notation
import Mathlib.Logic.Function.Basic
import OpusSysV.Lib.Reads
import OpusSysV.Lib.Word

/-!
# Unpacking: `getdict` and `decode` of `unpack/unpack.c`

A packed file starts with its dictionary: the number of levels of a Huffman tree, the
number of leaves on each level, and the characters at the leaves.  `getdict` reads it into
arrays that all files of a run share, and `decode` walks the tree bit by bit.

* `Access` — what is read: a byte of `inbuff`, a character of the dictionary, a level.
* `Log` — a piece of the code: what it reads, and what it computes or returns.
* `getdict` — the routine, to the end of `decode`; each loop is over a list or a count, so
  it ends on every input.
* `convert_spec` — no level has more than half as many inner nodes as the next one has nodes.
* `loadTree_loads` — loading stays at the start of `inbuff`, and builds a tree or gives up.
* `unpack_safe` — the reads of a file with levels are in bounds, or it is given up while its
  dictionary is loaded.
-/

namespace Cmd.Unpack

open Lib Function List Option

/-! ## Reads -/

/-- A read: of `inbuff[i]` when `n` bytes were read into it, of the character at `p` when the
dictionary ends at `eof`, or of level `lev`. -/
inductive Access
  | inbuff (i n : ℕ)
  | character (p eof : ℤ)
  | level (lev maxlev : ℕ)
  deriving DecidableEq, Repr

/-- The read is inside what was loaded. -/
def Access.Safe : Access → Prop
  | .inbuff i n => i < n
  | .character p eof => 0 ≤ p ∧ p < eof
  | .level lev maxlev => lev ≤ maxlev

instance (a : Access) : Decidable a.Safe := by
  cases a <;> unfold Access.Safe <;> infer_instance

/-- A piece of the code: it reads, and computes a value or makes `getdict` return. -/
abbrev Log (α : Type) := Lib.Reads Access Bool α

/-- All reads are inside what was loaded. -/
def Log.Safe {α : Type} (x : Log α) : Prop := x.All Access.Safe

/-! ## The globals -/

def US : UInt8 := 0o37
def RS : UInt8 := 0o36
def BUFSIZ : ℕ := 1024

/-- What the files of a run share: pointers into `characters` are indices. -/
structure Globals where
  inbuff : ℕ → UInt8
  maxlev : ℕ
  intnodes : ℕ → ℤ
  tree : ℕ → ℤ
  characters : ℕ → UInt8
  eof : ℕ
  origsize : ℤ

/-- `*inp` where `inp` is `&inbuff[i]` and `n` bytes were read. -/
def get (buf : ℕ → UInt8) (n i : ℕ) : Log UInt8 := .one (.inbuff i n) (buf i)

/-! ## `decode` -/

/-- The variables of `decode`, with the number of writes so far. -/
structure Dec where
  lev : ℕ
  i : ℤ
  outp : ℕ
  origsize : ℤ
  writes : ℕ

/-- `lev = 1; i = 0;` -/
def restart (g : Globals) (d : Dec) : Log Dec :=
  .one (.level 1 g.maxlev) { d with lev := 1, i := 0 }

/-- The code for one bit; `wok k` says whether the `k`th write succeeds. -/
def decodeBit (g : Globals) (wok : ℕ → Bool) (d : Dec) (bit : Bool) : Log Dec :=
  let i := if bit then long (long (d.i * 2) + 1) else long (d.i * 2)
  let j := i - g.intnodes d.lev
  if 0 ≤ j then
    let p := g.tree d.lev + j
    if p = g.eof then
      .ret (wok d.writes && decide (long (d.origsize - d.outp) = 0))
    else
      Lib.Reads.bind (.one (.character p g.eof) ()) fun _ =>
        if d.outp + 1 = BUFSIZ then
          if wok d.writes then
            restart g
              { d with outp := 0, origsize := long (d.origsize - BUFSIZ), writes := d.writes + 1 }
          else .ret false
        else restart g { d with outp := d.outp + 1 }
  else .one (.level (d.lev + 1) g.maxlev) { d with lev := d.lev + 1, i := i }

/-- The loop over the bits of a byte. -/
def decodeBits (g : Globals) (wok : ℕ → Bool) : List Bool → Dec → Log Dec
  | [], d => .ok d
  | b :: bits, d => (decodeBit g wok d b).bind (decodeBits g wok bits)

/-- The bits of a byte, the high one first. -/
def bits (c : UInt8) : List Bool := (List.range 8).map fun k => c.toNat.testBit (7 - k)

/-- The bytes of `inbuff` from `inp` on, of which `n` were read. -/
def decodeBytes (g : Globals) (wok : ℕ → Bool) (n : ℕ) : ℕ → List UInt8 → Dec → Log Dec
  | _, [], d => .ok d
  | inp, c :: cs, d =>
    (get (fun _ => c) n inp).bind fun c =>
      (decodeBits g wok (bits c) d).bind (decodeBytes g wok n (inp + 1) cs)

/-- `decode` where `inleft` is 0, with the results of the reads to come. -/
def decodeReads (g : Globals) (wok : ℕ → Bool) : List (Option (List UInt8)) → Dec → Log Unit
  | [], _ => .ret false
  | none :: _, _ => .ret false
  | some [] :: _, _ => .ret false
  | some (c :: cs) :: infile, d =>
    (decodeBytes g wok (c :: cs).length 0 (c :: cs) d).bind (decodeReads g wok infile)

/-- `decode()` with `inp` at the bytes `left` of the `n` read. -/
def decode (g : Globals) (wok : ℕ → Bool) (n inp : ℕ) (left : List UInt8)
    (infile : List (Option (List UInt8))) : Log Unit :=
  (restart g ⟨1, 0, 0, g.origsize, 0⟩).bind fun d =>
    (decodeBytes g wok n inp left d).bind (decodeReads g wok infile)

/-! ## `getdict` -/

/-- The loop that reads the number of leaves of each level, from level `i` on. -/
def getCounts (buf : ℕ → UInt8) (n : ℕ) : ℕ → ℕ → (ℕ → ℤ) → Log (ℕ → ℤ)
  | 0, _, t => .ok t
  | k + 1, i, t =>
    (get buf n (6 + i)).bind fun c => getCounts buf n k (i + 1) (update t i c.toNat)

/-- The dictionary while it is loaded. -/
structure Dict where
  tree : ℕ → ℤ
  characters : ℕ → UInt8
  eof : ℕ
  inp : ℕ

/-- `*eof++ = *inp++` -/
def loadChar (buf : ℕ → UInt8) (n : ℕ) (d : Dict) : Log Dict :=
  (get buf n d.inp).bind fun b =>
    .ok { d with
      characters := update d.characters d.eof b, eof := d.eof + 1, inp := d.inp + 1 }

/-- The loop over the characters of a level. -/
def loadChars (buf : ℕ → UInt8) (n : ℕ) : ℕ → Dict → Log Dict
  | 0, d => .ok d
  | c + 1, d => if 255 ≤ d.eof then .ret false else (loadChar buf n d).bind (loadChars buf n c)

/-- The loop over the levels, from level `i` on. -/
def loadLevels (buf : ℕ → UInt8) (n : ℕ) (intnodes : ℕ → ℤ) : ℕ → ℕ → Dict → Log Dict
  | 0, _, d => .ok d
  | k + 1, i, d =>
    (loadChars buf n (intnodes i).toNat { d with tree := update d.tree i d.eof }).bind
      (loadLevels buf n intnodes k (i + 1))

/-- The loop from `maxlev` down that turns numbers of leaves into numbers of inner nodes. -/
def convert : ℕ → ℤ → (ℕ → ℤ) → (ℕ → ℤ)
  | 0, _, t => t
  | i + 1, nchildren, t =>
    convert i (nchildren / 2 + t (i + 1)) (update t (i + 1) (short (nchildren / 2)))

/-- `getdict` behind the two-byte header and before `decode`, where `n` bytes were read into
`buf`: the globals, and where `inp` is. -/
def loadTree (g : Globals) (buf : ℕ → UInt8) (n : ℕ) : Log (Globals × ℕ) :=
  (get buf n 2).bind fun b2 => (get buf n 3).bind fun b3 =>
  (get buf n 4).bind fun b4 => (get buf n 5).bind fun b5 =>
    let origsize := long (((b2.toNat * 256 + b3.toNat) * 256 + b4.toNat) * 256 + b5.toNat : ℕ)
    (get buf n 6).bind fun b6 =>
      let maxlev := b6.toNat
      if maxlev > 24 then .ret false
      else
        (getCounts buf n maxlev 1 g.intnodes).bind fun counts =>
        (loadLevels buf n counts maxlev 1 ⟨g.tree, g.characters, 0, 7 + maxlev⟩).bind fun d =>
        (loadChar buf n d).bind fun d =>
          let leaves := update counts maxlev (short (counts maxlev + 2))
          if n < d.inp then .ret false
          else .ok (⟨buf, maxlev, convert maxlev 0 leaves, d.tree, d.characters, d.eof, origsize⟩,
            d.inp)

/-- `inbuff` when `chunk` was read into it. -/
def readInto (inbuff : ℕ → UInt8) (chunk : List UInt8) (i : ℕ) : UInt8 :=
  chunk[i]?.getD (inbuff i)

/-- `getdict()`: `infile` has the bytes that each `read` gives, or none for an error; `expand`
is what the routine for files of the old style does. -/
def getdict (expand : Log Unit) (wok : ℕ → Bool) (g : Globals)
    (infile : List (Option (List UInt8))) : Log Unit :=
  match infile.headD (some []) with
  | none => .ret false
  | some chunk =>
    let n := chunk.length
    let buf := readInto (update g.inbuff 6 25) chunk
    (get buf n 0).bind fun b0 =>
      if b0 ≠ US then .ret false
      else (get buf n 1).bind fun b1 =>
        if b1 = US then expand
        else if b1 ≠ RS then .ret false
        else (loadTree g buf n).bind fun (g, inp) =>
          decode g wok n inp (chunk.drop inp) infile.tail

/-! ## The tree -/

section tree

variable {g : Globals} {wok : ℕ → Bool} {d : Dec} {n m : ℕ}

/-- The levels below `i` are not touched by the loop from `i` down. -/
theorem convert_above (i : ℕ) (c : ℤ) (t : ℕ → ℤ) {k : ℕ} (hk : i < k) : convert i c t k = t k := by
  induction i generalizing c t with
  | zero => rfl
  | succ i ih =>
    rw [convert, ih _ _ (by omega), update_of_ne (by omega)]

/-- **The inner nodes of a level** are at most half the nodes of the next one, and few. -/
theorem convert_spec (i : ℕ) {c : ℤ} (hc : 0 ≤ c ∧ c ≤ 600) {t : ℕ → ℤ}
    (ht : ∀ k, 1 ≤ k → k ≤ i → 0 ≤ t k ∧ t k ≤ 300) :
    (∀ k, 1 ≤ k → k ≤ i → 0 ≤ convert i c t k ∧ convert i c t k ≤ 300) ∧
      (1 ≤ i → convert i c t i = c / 2) ∧
      ∀ k, 1 ≤ k → k < i → 2 * convert i c t k ≤ convert i c t (k + 1) + t (k + 1) := by
  induction i generalizing c t with
  | zero => exact ⟨fun k h1 h2 => by omega, fun h => by omega, fun k h1 h2 => by omega⟩
  | succ i ih =>
    have hlast := ht (i + 1) (by omega) le_rfl
    have hshort : short (c / 2) = c / 2 := short_eq (by omega)
    obtain ⟨t', ht'⟩ : ∃ t', t' = update t (i + 1) (c / 2) := ⟨_, rfl⟩
    have hdef : convert (i + 1) c t = convert i (c / 2 + t (i + 1)) t' := by
      rw [convert, hshort, ht']
    have hlow : ∀ k, k ≤ i → t' k = t k := fun k hk => by
      rw [ht', update_of_ne (by omega)]
    have htop : convert i (c / 2 + t (i + 1)) t' (i + 1) = c / 2 := by
      rw [convert_above _ _ _ (Nat.lt_succ_self i), ht', update_self]
    obtain ⟨h1, h2, h3⟩ := ih (c := c / 2 + t (i + 1)) (t := t') (by omega) fun k hk hki => by
      rw [hlow k hki]
      exact ht k hk (by omega)
    rw [hdef]
    refine ⟨fun k hk hki => ?_, fun _ => htop, fun k hk hki => ?_⟩
    · rcases Nat.lt_succ_iff_lt_or_eq.1 (Nat.lt_succ_of_le hki) with hlt | rfl
      · exact h1 k hk (by omega)
      · rw [htop]
        omega
    · rcases Nat.lt_succ_iff_lt_or_eq.1 hki with hlt | rfl
      · rw [← hlow (k + 1) hlt]
        exact h3 k hk hlt
      · rw [htop, h2 hk]
        omega

/-- The arrays of a dictionary with `leaves` on the levels, where `eof` ends it. -/
structure Tree (g : Globals) (leaves : ℕ → ℤ) : Prop where
  pos : 1 ≤ g.maxlev
  eof_pos : 1 ≤ g.eof
  nodes : ∀ k, 1 ≤ k → k ≤ g.maxlev → 0 ≤ g.intnodes k ∧ g.intnodes k ≤ 300
  last : g.intnodes g.maxlev = 0
  half : ∀ k, 1 ≤ k → k < g.maxlev → 2 * g.intnodes k ≤ g.intnodes (k + 1) + leaves (k + 1)
  first : g.tree 1 = 0
  tree_nonneg : ∀ k, 1 ≤ k → k ≤ g.maxlev → 0 ≤ g.tree k
  /-- The leaves of a level are characters, but for the last of all, which is `eof`. -/
  inside : ∀ k, 1 ≤ k → k ≤ g.maxlev → g.tree k + leaves k ≤ g.eof + 1

/-- Where the walk is: at the root, or at an inner node of the level before. -/
structure Walk (g : Globals) (d : Dec) : Prop where
  lev_pos : 1 ≤ d.lev
  lev_le : d.lev ≤ g.maxlev
  i_nonneg : 0 ≤ d.i
  root : d.lev = 1 → d.i = 0
  below : 1 < d.lev → d.i < g.intnodes (d.lev - 1)

theorem restart_walk (h : 1 ≤ g.maxlev) : (restart g d).Meets Access.Safe (Walk g) :=
  Lib.Reads.meets_one h ⟨le_rfl, h, le_rfl, fun _ => rfl, fun h1 => absurd h1 (lt_irrefl 1)⟩

/-- **One bit** is safe and leaves the walk at a node. -/
theorem decodeBit_walk {leaves : ℕ → ℤ} (ht : Tree g leaves) (wok : ℕ → Bool) (hd : Walk g d)
    (bit : Bool) : (decodeBit g wok d bit).Meets Access.Safe (Walk g) := by
  obtain ⟨hpos, hle, hi, hroot, hbelow⟩ := hd
  have hnode := ht.nodes d.lev hpos hle
  have hsmall : d.i ≤ 300 := by
    by_cases h1 : d.lev = 1
    · rw [hroot h1]
      decide
    · have := (ht.nodes (d.lev - 1) (by omega) (by omega)).2
      have := hbelow (by omega)
      omega
  -- the number of the node on its level
  obtain ⟨i, hdef, hi0, hi1⟩ : ∃ i, (if bit then long (long (d.i * 2) + 1) else long (d.i * 2)) = i ∧
      2 * d.i ≤ i ∧ i ≤ 2 * d.i + 1 := by
    refine ⟨_, rfl, ?_⟩
    have hdouble : long (d.i * 2) = d.i * 2 := long_eq (by omega) (by omega)
    cases bit
    · rw [if_neg (by decide), hdouble]
      omega
    · rw [if_pos rfl, hdouble, long_eq (by omega) (by omega)]
      omega
  have hin := ht.inside d.lev hpos hle
  have htree := ht.tree_nonneg d.lev hpos hle
  have hp : i - g.intnodes d.lev + g.tree d.lev ≤ g.eof := by
    by_cases h1 : d.lev = 1
    · have hz := hroot h1
      have hfirst := ht.first
      have heof := ht.eof_pos
      rw [h1] at hnode ⊢
      omega
    · have hhalf := ht.half (d.lev - 1) (by omega) (by omega)
      rw [Nat.sub_add_cancel hpos] at hhalf
      have := hbelow (by omega)
      omega
  have hlevel : i < g.intnodes d.lev → d.lev < g.maxlev := fun hlt => by
    refine lt_of_le_of_ne hle fun heq => ?_
    rw [heq, ht.last] at hlt
    omega
  have hread : i - g.intnodes d.lev ≥ 0 → g.tree d.lev + (i - g.intnodes d.lev) ≠ g.eof →
      (Access.character (g.tree d.lev + (i - g.intnodes d.lev)) g.eof).Safe :=
    fun h1 h2 => ⟨by omega, by omega⟩
  unfold decodeBit
  dsimp only
  rw [hdef]
  split_ifs with hj heq hfull hw
  · exact Lib.Reads.meets_ret _
  · exact .one (hread hj heq) (restart_walk ht.pos)
  · exact .one (hread hj heq) (Lib.Reads.meets_ret _)
  · exact .one (hread hj heq) (restart_walk ht.pos)
  · have hlt := hlevel (by omega)
    exact Lib.Reads.meets_one hlt ⟨by simp only; omega, hlt, by simp only; omega,
      fun h => by simp only at h; omega, fun _ => by simp only [Nat.add_sub_cancel]; omega⟩

theorem decodeBits_walk {leaves : ℕ → ℤ} (ht : Tree g leaves) (wok : ℕ → Bool) (hd : Walk g d)
    (l : List Bool) : (decodeBits g wok l d).Meets Access.Safe (Walk g) := by
  induction l generalizing d with
  | nil => exact Lib.Reads.meets_ok hd
  | cons b l ih => exact (decodeBit_walk ht wok hd b).bind fun _ hd' => ih hd'

/-- The bytes that are left of a read are read below its end. -/
theorem decodeBytes_walk {leaves : ℕ → ℤ} (ht : Tree g leaves) (wok : ℕ → Bool) (hd : Walk g d)
    {inp : ℕ} {l : List UInt8} (hn : inp + l.length ≤ n) :
    (decodeBytes g wok n inp l d).Meets Access.Safe (Walk g) := by
  induction l generalizing d inp with
  | nil => exact Lib.Reads.meets_ok hd
  | cons c l ih =>
    rw [length_cons] at hn
    exact .one (show inp < n by omega)
      ((decodeBits_walk ht wok hd _).bind fun _ hd' => ih hd' (by omega))

theorem decodeReads_walk {leaves : ℕ → ℤ} (ht : Tree g leaves) (wok : ℕ → Bool) (hd : Walk g d)
    (infile : List (Option (List UInt8))) : (decodeReads g wok infile d).Safe := by
  induction infile generalizing d with
  | nil => exact Lib.Reads.all_ret _
  | cons r infile ih =>
    cases r with
    | none => exact Lib.Reads.all_ret _
    | some l =>
      cases l with
      | nil => exact Lib.Reads.all_ret _
      | cons c cs =>
        have hall : 0 + (c :: cs).length ≤ (c :: cs).length := by omega
        have hbytes := decodeBytes_walk ht wok hd hall
        exact Lib.Reads.all_bind.2 ⟨hbytes.1, fun d' hd' => ih (hbytes.2 d' hd')⟩

/-- **`decode` is safe** on a tree. -/
theorem decode_safe {leaves : ℕ → ℤ} (ht : Tree g leaves) (wok : ℕ → Bool) {inp : ℕ}
    {l : List UInt8} (hn : inp + l.length ≤ n) (infile : List (Option (List UInt8))) :
    (decode g wok n inp l infile).Safe := by
  refine Lib.Reads.all_bind.2 ⟨(restart_walk ht.pos).1, fun d hd => ?_⟩
  have hbytes := decodeBytes_walk ht wok ((restart_walk ht.pos).2 d hd) hn
  exact Lib.Reads.all_bind.2 ⟨hbytes.1, fun d' hd' => decodeReads_walk ht wok (hbytes.2 d' hd') infile⟩

end tree

/-! ## Loading the dictionary -/

/-- A piece of the loading reads bytes at the start of `inbuff` only; it ends with `return (0)`,
or with a value as `P` says, and then all it read is before `inp`. -/
structure Loads {α : Type} (n : ℕ) (inp : α → ℕ) (x : Log α) (P : α → Prop) : Prop where
  start : ∀ a ∈ x.1, ∃ i, i < 287 ∧ a = .inbuff i n
  error : ∀ r, x.2 = .error r → r = false
  value : ∀ v, x.2 = .ok v → P v
  before : ∀ v, x.2 = .ok v → ∀ a ∈ x.1, ∃ i, i < inp v ∧ a = .inbuff i n

section load

variable {α β : Type} {n : ℕ} {inp : α → ℕ} {pos : β → ℕ} {P : α → Prop} {Q : β → Prop}
variable {buf : ℕ → UInt8}

theorem loads_ret : Loads n inp (.ret false) P where
  start := forall_mem_nil _
  error := fun r hr => by cases hr; rfl
  value := nofun
  before := nofun

theorem loads_ok {v : α} (h : P v) : Loads n inp (.ok v) P where
  start := forall_mem_nil _
  error := nofun
  value := fun w hw => by cases hw; exact h
  before := fun _ _ => forall_mem_nil _

/-- A sequence; what the second part ends with is behind what the first one read. -/
theorem Loads.bind {x : Log α} {f : α → Log β} (hx : Loads n inp x P)
    (hf : ∀ v, P v → Loads n pos (f v) fun w => Q w ∧ inp v ≤ pos w) :
    Loads n pos (x.bind f) Q := by
  obtain ⟨t, r⟩ := x
  cases r with
  | error r =>
    refine ⟨hx.start, fun r' hr => ?_, nofun, nofun⟩
    cases hr
    exact hx.error r rfl
  | ok v =>
    obtain ⟨hstart, herror, hvalue, hbefore⟩ := hf v (hx.value v rfl)
    refine ⟨forall_mem_append.2 ⟨hx.start, hstart⟩, herror, fun w hw => (hvalue w hw).1,
      fun w hw => forall_mem_append.2 ⟨fun a ha => ?_, hbefore w hw⟩⟩
    obtain ⟨i, hi, rfl⟩ := hx.before v rfl a ha
    exact ⟨i, lt_of_lt_of_le hi (hvalue w hw).2, rfl⟩

/-- One byte, and then `f` of it. -/
theorem Loads.byte {i : ℕ} {f : UInt8 → Log β} (hi : i < 287)
    (hf : Loads n pos (f (buf i)) fun w => Q w ∧ i < pos w) :
    Loads n pos ((get buf n i).bind f) Q := by
  have hread : Loads n (fun _ => i + 1) (get buf n i) fun b => b = buf i :=
    { start := forall_mem_singleton.2 ⟨i, hi, rfl⟩
      error := nofun
      value := fun b hb => by cases hb; rfl
      before := fun _ _ => forall_mem_singleton.2 ⟨i, Nat.lt_succ_self i, rfl⟩ }
  refine hread.bind fun b hb => ?_
  rw [hb]
  exact hf

theorem getCounts_loads (k : ℕ) {i : ℕ} (hi : 6 + i + k ≤ 287) (t : ℕ → ℤ) :
    Loads n (fun _ => 6 + i + k) (getCounts buf n k i t) fun t' =>
      (∀ j, j < i → t' j = t j) ∧ ∀ j, i ≤ j → j < i + k → 0 ≤ t' j ∧ t' j ≤ 255 := by
  induction k generalizing i t with
  | zero => exact loads_ok ⟨fun _ _ => rfl, fun j h1 h2 => by omega⟩
  | succ k ih =>
    refine .byte (by omega) ?_
    have hrest := ih (i := i + 1) (by omega) (update t i (buf (6 + i)).toNat)
    rw [show 6 + (i + 1) + k = 6 + i + (k + 1) by omega] at hrest
    refine ⟨hrest.start, hrest.error, fun t' ht' => ?_, hrest.before⟩
    obtain ⟨hlow, hcount⟩ := hrest.value t' ht'
    have hi' : t' i = (buf (6 + i)).toNat := by
      rw [hlow i (Nat.lt_succ_self i), update_self]
    have hbyte := (buf (6 + i)).toNat_lt
    refine ⟨⟨fun j hj => ?_, fun j h1 h2 => ?_⟩, by omega⟩
    · rw [hlow j (by omega), update_of_ne (by omega)]
    · rcases Nat.lt_or_eq_of_le h1 with hlt | rfl
      · exact hcount j hlt (by omega)
      · omega

/-- The dictionary has `eof` characters, which stood behind a header of `h` bytes. -/
def Dict.At (h : ℕ) (d : Dict) : Prop := d.inp = d.eof + h

theorem loadChar_loads {h : ℕ} {d : Dict} (hd : d.At h) (hlt : d.inp < 287) :
    Loads n Dict.inp (loadChar buf n d) fun d' =>
      d'.At h ∧ d'.eof = d.eof + 1 ∧ d'.tree = d.tree := by
  refine .byte hlt (loads_ok ⟨⟨?_, rfl, rfl⟩, Nat.lt_succ_self _⟩)
  unfold Dict.At at hd ⊢
  simp only
  omega

theorem loadChars_loads {h : ℕ} (hh : h ≤ 31) (c : ℕ) {d : Dict} (hd : d.At h)
    (hfew : d.eof ≤ 255) :
    Loads n Dict.inp (loadChars buf n c d) fun d' =>
      d'.At h ∧ d'.eof = d.eof + c ∧ d'.eof ≤ 255 ∧ d'.tree = d.tree := by
  induction c generalizing d with
  | zero => exact loads_ok ⟨hd, rfl, hfew, rfl⟩
  | succ c ih =>
    unfold loadChars
    split_ifs with hfull
    · exact loads_ret
    · have hpos : d.inp < 287 := by
        unfold Dict.At at hd
        omega
      refine (loadChar_loads hd hpos).bind fun d1 ⟨hd1, heof, htree⟩ => ?_
      obtain ⟨hstart, herror, hvalue, hbefore⟩ := ih hd1 (by omega)
      refine ⟨hstart, herror, fun d' hd' => ?_, hbefore⟩
      obtain ⟨hat, hsum, hle, ht⟩ := hvalue d' hd'
      refine ⟨⟨hat, by omega, hle, ht.trans htree⟩, ?_⟩
      unfold Dict.At at hat hd1
      omega

/-- **The levels**: each gets its characters, behind those of the levels before. -/
theorem loadLevels_loads {h : ℕ} (hh : h ≤ 31) {counts : ℕ → ℤ} (k : ℕ) {i : ℕ} {d : Dict}
    (hd : d.At h) (hfew : d.eof ≤ 255) :
    Loads n Dict.inp (loadLevels buf n counts k i d) fun d' =>
      d'.At h ∧ d.eof ≤ d'.eof ∧ d'.eof ≤ 255 ∧ (∀ j, j < i → d'.tree j = d.tree j) ∧
        (1 ≤ k → d'.tree i = d.eof) ∧
        ∀ j, i ≤ j → j < i + k → 0 ≤ d'.tree j ∧ d'.tree j + counts j ≤ d'.eof := by
  induction k generalizing i d with
  | zero =>
    exact loads_ok ⟨hd, le_rfl, hfew, fun _ _ => rfl, fun h => by omega, fun j h1 h2 => by omega⟩
  | succ k ih =>
    refine (loadChars_loads hh _ (d := { d with tree := update d.tree i d.eof }) hd
      hfew).bind fun d1 ⟨hd1, heof, hle, htree⟩ => ?_
    obtain ⟨hstart, herror, hvalue, hbefore⟩ := ih (i := i + 1) hd1 hle
    refine ⟨hstart, herror, fun d' hd' => ?_, hbefore⟩
    obtain ⟨hat, hmono, hle', hlow, -, hlevels⟩ := hvalue d' hd'
    simp only at heof htree
    have hi : d'.tree i = d.eof := by
      rw [hlow i (Nat.lt_succ_self i), htree, update_self]
    refine ⟨⟨hat, by omega, hle', fun j hj => ?_, fun _ => hi, fun j h1 h2 => ?_⟩, ?_⟩
    · rw [hlow j (by omega), htree, update_of_ne (by omega)]
    · rcases Nat.lt_or_eq_of_le h1 with hlt | rfl
      · exact hlevels j hlt (by omega)
      · omega
    · unfold Dict.At at hat hd1
      omega

/-- What is loaded with a level at least is a tree. -/
theorem tree_of_load {g : Globals} {counts tree : ℕ → ℤ} {m eof : ℕ} (hm : 1 ≤ m)
    (hcount : ∀ j, 1 ≤ j → j < 1 + m → 0 ≤ counts j ∧ counts j ≤ 255) (hfirst : tree 1 = 0)
    (hlevels : ∀ j, 1 ≤ j → j < 1 + m → 0 ≤ tree j ∧ tree j + counts j ≤ eof)
    (hmax : g.maxlev = m)
    (hnodes : g.intnodes = convert m 0 (update counts m (short (counts m + 2))))
    (htree : g.tree = tree) (heof : g.eof = eof + 1) :
    Tree g (update counts m (short (counts m + 2))) := by
  obtain ⟨leaves, hdef⟩ : ∃ l, l = update counts m (short (counts m + 2)) := ⟨_, rfl⟩
  rw [← hdef] at hnodes ⊢
  have hlast := hcount m hm (by omega)
  have htop : leaves m = counts m + 2 := by
    rw [hdef, update_self, short_eq (by omega)]
  have hother : ∀ j, j ≠ m → leaves j = counts j := fun j hj => by
    rw [hdef, update_of_ne hj]
  have hleaves : ∀ j, 1 ≤ j → j ≤ m →
      counts j ≤ leaves j ∧ leaves j ≤ counts j + 2 ∧ (j ≠ m → leaves j = counts j) :=
    fun j _ _ => by
      by_cases hj : j = m
      · subst hj
        omega
      · have := hother j hj
        omega
  have hsmall : ∀ j, 1 ≤ j → j ≤ m → 0 ≤ leaves j ∧ leaves j ≤ 300 := fun j h1 h2 => by
    have := hleaves j h1 h2
    have := hcount j h1 (by omega)
    omega
  obtain ⟨hfew, hlastnode, hhalf⟩ := convert_spec m (c := 0) (by omega) hsmall
  refine ⟨by omega, by omega, ?_, ?_, ?_, by rw [htree, hfirst], ?_, ?_⟩
  · rw [hmax, hnodes]
    exact hfew
  · rw [hmax, hnodes, hlastnode hm]
    rfl
  · rw [hmax, hnodes]
    exact hhalf
  · rw [hmax, htree]
    exact fun j h1 h2 => (hlevels j h1 (by omega)).1
  · rw [hmax, htree, heof]
    intro j h1 h2
    have := hleaves j h1 h2
    have := (hlevels j h1 (by omega)).2
    omega

/-- **The loading** ends in `goof`, or with all it read inside what was read in, and then with a
tree unless the file has no levels. -/
theorem loadTree_loads (g : Globals) :
    Loads n Prod.snd (loadTree g buf n) fun v =>
      v.2 ≤ n ∧ (buf 6 ≠ 0 → ∃ leaves, Tree v.1 leaves) := by
  unfold loadTree
  refine .byte (by omega) (.byte (by omega) (.byte (by omega) (.byte (by omega) ?_)))
  dsimp only
  refine .byte (by omega) ?_
  split_ifs with hmax
  · exact loads_ret
  · refine (getCounts_loads _ (by omega) g.intnodes).bind fun counts ⟨_, hcount⟩ => ?_
    refine (loadLevels_loads (h := 7 + (buf 6).toNat) (by omega) _
      (d := ⟨g.tree, g.characters, 0, 7 + (buf 6).toNat⟩) (Nat.zero_add _).symm
      (Nat.zero_le 255)).bind fun d ⟨hd, _, hfew, _, hfirst, hlevels⟩ => ?_
    have hpos : d.inp < 287 := by
      unfold Dict.At at hd
      omega
    refine (loadChar_loads hd hpos).bind fun d' ⟨hd', heof, htree⟩ => ?_
    split_ifs with hshort
    · exact loads_ret
    · refine loads_ok ?_
      have hinp : 7 + (buf 6).toNat + 1 ≤ d'.inp := by
        unfold Dict.At at hd'
        omega
      have hbehind : d.inp ≤ d'.inp := by
        unfold Dict.At at hd hd'
        omega
      refine ⟨⟨⟨⟨⟨⟨⟨⟨⟨by simp only; omega, fun hlev => ?_⟩, ?_⟩, ?_⟩, ?_⟩, ?_⟩, ?_⟩, ?_⟩, hbehind⟩,
        le_rfl⟩
      · have hpos : 1 ≤ (buf 6).toNat := by
          refine Nat.pos_of_ne_zero fun hz => hlev ?_
          exact UInt8.toNat_inj.1 hz
        exact ⟨_, tree_of_load hpos hcount (hfirst hpos) hlevels rfl rfl htree heof⟩
      all_goals simp only; omega

end load

/-! ## A whole file -/

/-- **A file of the new format with levels**, after any files before it, is unpacked with all
reads in bounds; or what it reads is the start of `inbuff` only, and it is not in packed format. -/
theorem unpack_safe (expand : Log Unit) (wok : ℕ → Bool) (g : Globals)
    (infile : List (Option (List UInt8))) {chunk : List UInt8} (hus : chunk[0]? = some US)
    (hrs : chunk[1]? = some RS) (hlev : chunk[6]? ≠ some 0) :
    (getdict expand wok g (some chunk :: infile)).Safe ∨
      (getdict expand wok g (some chunk :: infile)).2 = .error false ∧
        ∀ a ∈ (getdict expand wok g (some chunk :: infile)).1,
          ∃ i, i < 287 ∧ a = .inbuff i chunk.length := by
  obtain ⟨buf, hbuf⟩ : ∃ buf, buf = readInto (update g.inbuff 6 25) chunk := ⟨_, rfl⟩
  have h1 : 1 < chunk.length := (List.getElem?_eq_some_iff.1 hrs).1
  have hlev' : buf 6 ≠ 0 := by
    rw [hbuf, readInto]
    cases h6 : chunk[6]? with
    | none => simp
    | some c => exact fun hz => hlev (h6.trans (congrArg some hz))
  -- the header is read, and then the tree is loaded
  obtain ⟨rest, hrest⟩ : ∃ rest : Log Unit, rest = (loadTree g buf chunk.length).bind
      fun (g, inp) => decode g wok chunk.length inp (chunk.drop inp) infile := ⟨_, rfl⟩
  have hrun : getdict expand wok g (some chunk :: infile) =
      (.inbuff 0 chunk.length :: .inbuff 1 chunk.length :: rest.1, rest.2) := by
    have hus' : buf 0 = US := by rw [hbuf, readInto, hus, getD_some]
    have hrs' : buf 1 = RS := by rw [hbuf, readInto, hrs, getD_some]
    unfold getdict
    dsimp only [headD_cons, tail_cons]
    rw [← hbuf, get, Lib.Reads.bind_one, hus', if_neg (by decide), get, Lib.Reads.bind_one, hrs',
      if_neg (by decide), if_neg (by decide), ← hrest]
  rw [hrun]
  have hload : Loads _ Prod.snd (loadTree g buf chunk.length) _ := loadTree_loads g
  unfold Log.Safe Lib.Reads.All
  dsimp only
  simp only [forall_mem_cons]
  rcases hx : loadTree g buf chunk.length with ⟨t, r⟩
  rw [hx] at hload hrest
  cases r with
  | error r =>
    rw [hrest]
    exact .inr ⟨congrArg _ (hload.error r rfl), ⟨0, by omega, rfl⟩, ⟨1, by omega, rfl⟩, hload.start⟩
  | ok v =>
    obtain ⟨hle, htree⟩ := hload.value v rfl
    obtain ⟨leaves, htree⟩ := htree hlev'
    refine .inl ⟨show 0 < _ by omega, h1, ?_⟩
    rw [hrest]
    refine forall_mem_append.2 ⟨fun a ha => ?_, ?_⟩
    · obtain ⟨i, hi, rfl⟩ := hload.before v rfl a ha
      exact lt_of_lt_of_le hi hle
    · refine decode_safe htree wok ?_ infile
      rw [length_drop]
      omega

/-- The globals of a program that has not read a file. -/
def Globals.zero : Globals :=
  ⟨fun _ => 0, 0, fun _ => 0, fun _ => 0, fun _ => 0, 0, 0⟩

/-- A file of one level with the leaf `a`, whose data is one `a`. -/
def packedA : List UInt8 := [US, RS, 0, 0, 0, 1, 1, 0, 97, 0b01000000]

example : (getdict (.ret false) (fun _ => true) .zero [some packedA]).2 = .error true := by decide

theorem unpack_safe_one :
    (getdict (.ret false) (fun _ => true) .zero [some packedA]).Safe ∨
      (getdict (.ret false) (fun _ => true) .zero [some packedA]).2 = .error false ∧
        ∀ a ∈ (getdict (.ret false) (fun _ => true) .zero [some packedA]).1,
          ∃ i, i < 287 ∧ a = .inbuff i packedA.length :=
  unpack_safe _ _ _ [] rfl rfl (by decide)

/-- A file that ends behind the number of levels: the number of leaves read is not the file's. -/
theorem unpack_reads_behind :
    ¬ (getdict (.ret false) (fun _ => true) .zero [some [US, RS, 0, 0, 0, 1, 1]]).Safe := by
  intro h
  exact absurd (h (.inbuff 7 7) (by decide)) (by decide)

end Cmd.Unpack
