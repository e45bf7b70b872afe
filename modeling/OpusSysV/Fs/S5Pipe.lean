import OpusSysV.Lib.Run
import OpusSysV.Fs.S5Rdwri

/-!
# A pipe is a ring

* `Holds` — the pipe between a read pointer and a write pointer: its size within the ring,
  the pointers that far apart, and what has been handed out followed by what the ring holds
  is what has been taken in.  The pointers are those of the inode while nobody moves bytes,
  and `u_offset` in the place of one of them within the loops over blocks.
* `readDo_holds`, `writeDo_holds` — one turn of each loop, when the copy does not fault and
  the block can be read.
* `pipe_ring` — every run of such turns.
-/

namespace Fs

open Lib Function List Option

variable {bs : BlockSize} {ip : Inode} {u : User} {env : Env} {r w : ℕ}
  {delivered taken : List Byte}

/-- The pipe between the read pointer `r` and the write pointer `w`. -/
structure Holds (bs : BlockSize) (ip : Inode) (r w : ℕ) (delivered taken : List Byte) : Prop where
  size_nonneg : 0 ≤ ip.iSize
  size_le : ip.iSize ≤ PIPSIZ
  r_lt : r < PIPSIZ
  w_lt : w < PIPSIZ
  apart : w = (r + ip.iSize.toNat) % PIPSIZ
  mapped : ∀ i < ip.iSize.toNat, ip.addr ((r + i) % PIPSIZ / bs.bsize) = true
  bytes : delivered ++ cells PIPSIZ ip.byte r ip.iSize.toNat = taken

/-- A block ends within the ring. -/
theorem block_le (bs : BlockSize) (h : r < PIPSIZ) : r - r % bs.bsize + bs.bsize ≤ PIPSIZ := by
  have hp : PIPSIZ = 5120 := rfl
  rcases bs.bsize_eq with hb | hb <;> rw [hb] <;> omega

theorem bsize_pos (bs : BlockSize) : 0 < bs.bsize := by
  rcases bs.bsize_eq with hb | hb <;> omega

/-! ## One turn that reads -/

/-- What is left in the ring after a turn that has read a block to its end is not in that
block. -/
theorem not_in_block (bs : BlockSize) {e k i : ℕ} (hbs : bs.bsize ≤ e) (he : e ≤ PIPSIZ)
    (hk : k + bs.bsize ≤ PIPSIZ) (hi : i < k) :
    ¬ (e - bs.bsize ≤ (e + i) % PIPSIZ ∧ (e + i) % PIPSIZ < e) := by
  rintro ⟨h1, h2⟩
  have hne := ring_ne (P := PIPSIZ) (r := e) (i := i)
    (j := PIPSIZ - e + (e + i) % PIPSIZ) (by omega) (by omega)
  apply hne
  rw [show e + (PIPSIZ - e + (e + i) % PIPSIZ) = PIPSIZ + (e + i) % PIPSIZ by omega,
    Nat.add_mod_left, Nat.mod_mod]

/-- The next position in the ring. -/
theorem wrap_eq {r n : ℕ} (h : r + n ≤ PIPSIZ) :
    (if r + n ≥ PIPSIZ then 0 else r + n) = (r + n) % PIPSIZ := by
  split_ifs with hge
  · rw [show r + n = PIPSIZ by omega, Nat.mod_self]
  · rw [Nat.mod_eq_of_lt (by omega)]

/-- Bytes are taken from the front; the block they end may lose its contents. -/
theorem Holds.take {n b0 : ℕ} {c : Bool} {junk : ℕ → Byte} (h : Holds bs ip r w delivered taken)
    (hn : n ≤ ip.iSize.toNat) (hr : r + n ≤ PIPSIZ)
    (hc : c = true → b0 + bs.bsize = r + n ∧ ip.iSize - n < (PIPSIZ : ℤ) - bs.bsize) :
    Holds bs { ip with
        iSize := ip.iSize - n
        byte := fun i => if c ∧ b0 ≤ i ∧ i < b0 + bs.bsize then junk i else ip.byte i }
      (if r + n ≥ PIPSIZ then 0 else r + n) w (delivered ++ row ip.byte r n) taken := by
  have h0 := h.size_nonneg
  have h1 := h.size_le
  have hsize : ip.iSize.toNat = n + (ip.iSize - n).toNat := by omega
  have hp : 0 < PIPSIZ := by norm_num [PIPSIZ, BSIZE]
  rw [wrap_eq hr]
  refine ⟨by simp only; omega, by simp only; omega, Nat.mod_lt _ hp, h.w_lt, ?_, fun i hi => ?_, ?_⟩
  · rw [h.apart, hsize, Nat.mod_add_mod, Nat.add_assoc]
  · have hi' : i < (ip.iSize - n).toNat := hi
    rw [Nat.mod_add_mod, Nat.add_assoc]
    exact h.mapped (n + i) (by omega)
  · rw [← h.bytes, hsize, ← row_append_cells hr, append_assoc]
    congr 2
    rw [cells_mod, cells_mod]
    refine cells_congr fun i hi => if_neg ?_
    rintro ⟨hc', hlow, hhigh⟩
    obtain ⟨hb0, hlt⟩ := hc hc'
    have hi' : i < (ip.iSize - n).toNat := hi
    exact not_in_block bs (by omega) hr (by omega) hi' ⟨by omega, hhigh.trans_eq hb0⟩

theorem readSize_le (bs : BlockSize) (ip : Inode) (u : User) : readSize bs.bsize ip u ≤ bs.bsize - u.uOffset % bs.bsize ∧
    readSize bs.bsize ip u ≤ ip.iSize.toNat := by
  unfold readSize
  omega

/-- What a piece leaves behind for a call that goes on in the loop of `s5readi`. -/
def Reading (bs : BlockSize) (w : ℕ) (p : Piece) (delivered taken : List Byte) : Prop :=
  p.taken = [] ∧ p.ip.fwptr = w ∧ ∃ c, p.next = .goOn c ∧
    (c.place = .readDo ∨ c.place = .readEnd) ∧
    Holds bs p.ip c.u.uOffset w (delivered ++ p.delivered) taken

/-- **One turn that reads**, without a fault. -/
theorem readDo_holds (h : Holds bs ip u.uOffset ip.fwptr delivered taken) (hfault : env.fault = none) :
    Reading bs ip.fwptr (readDo bs.bsize ip u env) delivered taken := by
  unfold readDo
  by_cases hstop : readSize bs.bsize ip u = 0 ∨ ip.addr (u.uOffset / bs.bsize) = false
  · simp only [if_pos hstop]
    exact ⟨rfl, rfl, _, rfl, Or.inr rfl, by simpa [Piece.still] using h⟩
  simp only [if_neg hstop]
  obtain ⟨hn1, hn2⟩ := readSize_le bs ip u
  generalize hn : (if env.resid then 0 else readSize bs.bsize ip u) = n
  have hle : n ≤ readSize bs.bsize ip u := by
    rw [← hn]
    split_ifs <;> omega
  have hblock := block_le bs h.r_lt
  have hon := Nat.mod_le u.uOffset bs.bsize
  have hlt := Nat.mod_lt u.uOffset (bsize_pos bs)
  have hnofault : decide (n ≠ 0 ∧ env.fault ≠ none) = false := by simp [hfault]
  simp only [hnofault, Bool.false_eq_true, if_false]
  refine ⟨rfl, rfl, _, rfl, ite_eq_or_eq _ _ _, ?_⟩
  refine h.take (hle.trans hn2) (by omega) fun hc => ?_
  obtain ⟨hc1, hc2⟩ := of_decide_eq_true hc
  exact ⟨by omega, hc2⟩

/-! ## One turn that writes -/

/-- The cells in the ring are not where the next bytes go. -/
theorem Holds.ne_next (h : Holds bs ip r w delivered taken) {i d : ℕ} (hi : i < ip.iSize.toNat)
    (hd : ip.iSize.toNat + d < PIPSIZ) (hw : w + d < PIPSIZ) : (r + i) % PIPSIZ ≠ w + d := by
  have hne := ring_ne (P := PIPSIZ) (r := r) (i := i) (j := ip.iSize.toNat + d) (by omega) (by omega)
  intro heq
  apply hne
  rw [heq, ← Nat.add_assoc, ← Nat.mod_add_mod, ← h.apart, Nat.mod_eq_of_lt hw]

/-- Bytes are put at the end. -/
theorem Holds.put {xs : List Byte} {byte' : ℕ → Byte} {addr' : ℕ → Bool}
    (h : Holds bs ip r w delivered taken) (hroom : ip.iSize + xs.length ≤ PIPSIZ)
    (hw : w + xs.length ≤ PIPSIZ)
    (hkeep : ∀ i < ip.iSize.toNat, byte' ((r + i) % PIPSIZ) = ip.byte ((r + i) % PIPSIZ))
    (hput : ∀ i (hi : i < xs.length), byte' (w + i) = xs[i])
    (hmapped : ∀ b, ip.addr b = true → addr' b = true)
    (hmap : ∀ i < xs.length, addr' ((w + i) / bs.bsize) = true) :
    Holds bs { ip with iSize := ip.iSize + xs.length, addr := addr', byte := byte' } r
      (if w + xs.length = PIPSIZ then 0 else w + xs.length) delivered (taken ++ xs) := by
  have h0 := h.size_nonneg
  have hwlt := h.w_lt
  have hsize : (ip.iSize + xs.length).toNat = ip.iSize.toNat + xs.length := by omega
  have hwrap : (if w + xs.length = PIPSIZ then 0 else w + xs.length) = (w + xs.length) % PIPSIZ := by
    rw [← wrap_eq hw]
    split_ifs <;> omega
  have hpos : ∀ i, i < xs.length → (r + ip.iSize.toNat + i) % PIPSIZ = w + i := by
    intro i hi
    rw [← Nat.mod_add_mod, ← h.apart, Nat.mod_eq_of_lt (by omega)]
  rw [hwrap]
  refine ⟨by simp only; omega, hroom, h.r_lt, Nat.mod_lt _ (by omega), ?_, fun i hi => ?_, ?_⟩
  · rw [hsize, ← Nat.add_assoc, ← Nat.mod_add_mod (r + ip.iSize.toNat), ← h.apart]
  · have hi' : i < ip.iSize.toNat + xs.length := by rw [← hsize]; exact hi
    by_cases hold : i < ip.iSize.toNat
    · exact hmapped _ (h.mapped i hold)
    · have := hpos (i - ip.iSize.toNat) (by omega)
      rw [show r + ip.iSize.toNat + (i - ip.iSize.toNat) = r + i by omega] at this
      simp only [this]
      exact hmap _ (by omega)
  · rw [hsize, cells_put hkeep fun i hi => by rw [hpos i hi]; exact hput i hi, ← append_assoc,
      h.bytes]

/-- The rest of a write has room, and its bytes are there. -/
def Fits (ip : Inode) (u : User) : Prop :=
  u.uCount + ip.iSize ≤ PIPSIZ ∧ u.uCount + u.usave ≤ u.uBase.length

/-- What a piece leaves behind for a call that goes on in the loop of `s5writei`. -/
def Writing (bs : BlockSize) (r : ℕ) (p : Piece) (delivered taken : List Byte) : Prop :=
  p.delivered = [] ∧ p.ip.frptr = r ∧ ∃ c, p.next = .goOn c ∧
    (c.place = .writeDo ∨ c.place = .writeEnd) ∧
    Holds bs p.ip r c.u.uOffset delivered (taken ++ p.taken) ∧ Fits p.ip c.u

theorem writeSize_le (bs : BlockSize) (u : User) :
    writeSize bs.bsize u ≤ bs.bsize - u.uOffset % bs.bsize ∧ writeSize bs.bsize u ≤ u.uCount := by
  unfold writeSize
  omega

/-- A turn takes its buffer by `getblk` only where the rest of the block holds nothing. -/
theorem Holds.getsBlk_ne (h : Holds bs ip r u.uOffset delivered taken)
    (hroom : u.uCount + ip.iSize ≤ PIPSIZ) (hget : getsBlk bs.bsize ip u = true) {i : ℕ}
    (hi : i < ip.iSize.toNat) :
    ¬ (u.uOffset - u.uOffset % bs.bsize ≤ (r + i) % PIPSIZ ∧
      (r + i) % PIPSIZ < u.uOffset - u.uOffset % bs.bsize + bs.bsize) := by
  rintro ⟨h1, h2⟩
  obtain ⟨hn1, hn2⟩ := writeSize_le bs u
  have hblock := block_le bs h.w_lt
  have hlt := Nat.mod_lt u.uOffset (bsize_pos bs)
  have hon : u.uOffset % bs.bsize = 0 ∧ ip.iSize.toNat + bs.bsize ≤ PIPSIZ := by
    rcases of_decide_eq_true hget with hfull | ⟨hz, hroom'⟩
    · exact ⟨by omega, by omega⟩
    · exact ⟨hz, by omega⟩
  refine h.ne_next (d := (r + i) % PIPSIZ - u.uOffset) hi (by omega) (by omega) (by omega)

/-- **One turn that writes**, without a fault and with a block that can be read. -/
theorem writeDo_holds (h : Holds bs ip ip.frptr u.uOffset delivered taken) (hfits : Fits ip u)
    (hfault : env.fault = none) (hresid : getsBlk bs.bsize ip u = false → env.resid = false) :
    Writing bs ip.frptr (writeDo bs.bsize ip u env) delivered taken := by
  unfold writeDo
  by_cases hstop : u.uError ≠ none ∨ u.uCount = 0
  · simp only [if_pos hstop]
    exact ⟨rfl, rfl, _, rfl, Or.inr rfl, by simpa [Piece.still] using h, hfits⟩
  simp only [if_neg hstop]
  by_cases hspace : ip.addr (u.uOffset / bs.bsize) = false ∧ env.nospace
  · simp only [if_pos hspace]
    exact ⟨rfl, rfl, _, rfl, Or.inr rfl, by simpa [Piece.still] using h, hfits⟩
  simp only [if_neg hspace]
  obtain ⟨hroom, hbase⟩ := hfits
  obtain ⟨hn1, hn2⟩ := writeSize_le bs u
  have hwlt := h.w_lt
  have hblock := block_le bs hwlt
  have hon := Nat.mod_le u.uOffset bs.bsize
  have hlt := Nat.mod_lt u.uOffset (bsize_pos bs)
  have heio : decide (getsBlk bs.bsize ip u = false ∧ env.resid) = false := by
    simp only [decide_eq_false_iff_not]
    rintro ⟨hg, hr⟩
    rw [hresid hg] at hr
    cases hr
  have hlen : (u.uBase.take (writeSize bs.bsize u)).length = writeSize bs.bsize u := by
    rw [length_take]
    omega
  simp only [heio, hfault, map_none, getD_none, Bool.false_eq_true, if_false, if_true,
    ne_eq, not_true_eq_false]
  refine ⟨rfl, rfl, _, rfl, Or.inl rfl, ?_, ?_⟩
  · have hget : ∀ i (hi : i < (u.uBase.take (writeSize bs.bsize u)).length),
        u.uBase.getD i 0 = (u.uBase.take (writeSize bs.bsize u))[i] := fun i hi => by
      rw [getElem_take, getD_eq_getElem _ _ (by omega)]
    generalize u.uBase.take (writeSize bs.bsize u) = xs at hlen hget ⊢
    rw [← hlen]
    have hin : ∀ i, i < xs.length → u.uOffset - u.uOffset % bs.bsize ≤ u.uOffset + i ∧
        u.uOffset + i < u.uOffset - u.uOffset % bs.bsize + bs.bsize := fun i hi => by omega
    refine h.put (by omega) (by omega) (fun i hi => ?_) (fun i hi => ?_) (fun b hb => ?_)
      fun i hi => ?_
    · -- the bytes in the ring stay as they are, in this block and in the others
      by_cases hb : u.uOffset - u.uOffset % bs.bsize ≤ (ip.frptr + i) % PIPSIZ ∧
          (ip.frptr + i) % PIPSIZ < u.uOffset - u.uOffset % bs.bsize + bs.bsize
      · have hng : getsBlk bs.bsize ip u = false := by
          by_contra hg
          exact h.getsBlk_ne hroom (by simpa using hg) hi hb
        have hdata : ¬ (u.uOffset ≤ (ip.frptr + i) % PIPSIZ ∧
            (ip.frptr + i) % PIPSIZ < u.uOffset + xs.length) := by
          rintro ⟨h1, h2⟩
          exact h.ne_next (d := (ip.frptr + i) % PIPSIZ - u.uOffset) hi (by omega) (by omega)
            (by omega)
        have haddr : ip.addr (u.uOffset / bs.bsize) = true := by
          rw [← h.mapped i hi]
          congr 1
          rcases bs.bsize_eq with hbs | hbs <;> rw [hbs] at hb ⊢ <;> omega
        rw [if_pos hb, if_neg hdata, hng, haddr]
        rfl
      · rw [if_neg hb]
    · rw [if_pos (hin i hi), if_pos ⟨by omega, by omega⟩, Nat.add_sub_cancel_left]
      exact hget i hi
    · by_cases heq : b = u.uOffset / bs.bsize
      · rw [heq, update_self]
      · rw [update_of_ne heq, hb]
    · have hsame : (u.uOffset + i) / bs.bsize = u.uOffset / bs.bsize := by
        have := hin i hi
        rcases bs.bsize_eq with hbs | hbs <;> rw [hbs] at this ⊢ <;> omega
      rw [hsame, update_self]
  · simp only [Fits, length_drop]
    omega

/-! ## Every piece -/

/-- A call that waits for data or for room. -/
def Call.Waits (c : Call) : Prop :=
  c.place = .readWhile ∨ c.place = .writeWhile ∧ c.u.uCount ≤ c.u.uBase.length

/-- The pipe at the place where a call with the inode locked is. -/
def Call.Ok (bs : BlockSize) (ip : Inode) (delivered taken : List Byte) (c : Call) : Prop :=
  match c.place with
  | .readWhile | .writeWhile => Holds bs ip ip.frptr ip.fwptr delivered taken ∧ c.Waits
  | .readDo | .readEnd => Holds bs ip c.u.uOffset ip.fwptr delivered taken
  | .writeDo | .writeEnd => Holds bs ip ip.frptr c.u.uOffset delivered taken ∧ Fits ip c.u

/-- Nothing fails where the call is: the copy does not fault, a block that is to be read can
be, and the size of the write and that of the pipe add up to a word. -/
def Call.Works (bs : BlockSize) (ip : Inode) (env : Env) (c : Call) : Prop :=
  match c.place with
  | .readDo => env.fault = none
  | .writeDo => env.fault = none ∧ (getsBlk bs.bsize ip c.u = false → env.resid = false)
  | .writeWhile => c.u.uCount + ip.iSize < 2 ^ 32
  | _ => True

/-- The pipe after a piece. -/
def Piece.Ok (bs : BlockSize) (delivered taken : List Byte) (p : Piece) : Prop :=
  match p.next with
  | .goOn c => c.Ok bs p.ip (delivered ++ p.delivered) (taken ++ p.taken)
  | .sleep c => Holds bs p.ip p.ip.frptr p.ip.fwptr (delivered ++ p.delivered) (taken ++ p.taken) ∧
      c.Waits
  | .ret _ => Holds bs p.ip p.ip.frptr p.ip.fwptr (delivered ++ p.delivered) (taken ++ p.taken)

/-- A piece that moves no bytes. -/
theorem still_ok {next : Next} (h : match next with
    | .goOn c => c.Ok bs ip delivered taken
    | .sleep c => Holds bs ip ip.frptr ip.fwptr delivered taken ∧ c.Waits
    | .ret _ => Holds bs ip ip.frptr ip.fwptr delivered taken) :
    (Piece.still ip next).Ok bs delivered taken := by
  unfold Piece.Ok Piece.still
  simp only [append_nil]
  exact h

theorem readWhile_ok (h : Holds bs ip ip.frptr ip.fwptr delivered taken) :
    (readWhile ip u).Ok bs delivered taken := by
  unfold readWhile
  split_ifs
  · exact still_ok h
  · exact still_ok h
  · exact still_ok h
  · exact still_ok ⟨h, Or.inl rfl⟩
  · exact still_ok h

theorem readEnd_ok (h : Holds bs ip u.uOffset ip.fwptr delivered taken) :
    (readEnd ip u).Ok bs delivered taken := by
  unfold readEnd
  apply still_ok
  by_cases hz : ip.iSize = 0
  · -- an empty pipe starts again at the beginning
    have hbytes := h.bytes
    rw [hz] at hbytes
    rw [if_neg (by simpa using hz)]
    have hp : 0 < PIPSIZ := by norm_num [PIPSIZ, BSIZE]
    refine ⟨h.size_nonneg, h.size_le, hp, hp, ?_, fun i hi => ?_, ?_⟩
    · simp [hz]
    · simp [hz] at hi
    · rw [show ({ ip with frptr := 0, fwptr := 0 } : Inode).iSize = 0 from hz]
      exact hbytes
  · rw [if_pos hz]
    exact ⟨h.size_nonneg, h.size_le, h.r_lt, h.w_lt, h.apart, h.mapped, h.bytes⟩

theorem writeWhile_ok (h : Holds bs ip ip.frptr ip.fwptr delivered taken)
    (hbase : u.uCount ≤ u.uBase.length) (hword : u.uCount + ip.iSize < 2 ^ 32) :
    (writeWhile ip u).Ok bs delivered taken := by
  have h0 := h.size_nonneg
  have hmod : ((u.uCount : ℤ) + ip.iSize) % 2 ^ 32 = u.uCount + ip.iSize :=
    Int.emod_eq_of_lt (by omega) hword
  unfold writeWhile
  rw [hmod]
  split_ifs with hfull hbig
  · -- a write larger than the ring fills it first
    refine still_ok ⟨h, ?_, ?_⟩ <;> simp only <;> omega
  · exact still_ok h
  · exact still_ok h
  · exact still_ok ⟨h, Or.inr ⟨rfl, hbase⟩⟩
  · exact still_ok h
  · refine still_ok ⟨h, ?_, by simpa using hbase⟩
    simp only
    omega

theorem writeEnd_ok (h : Holds bs ip ip.frptr u.uOffset delivered taken) (hfits : Fits ip u) :
    (writeEnd ip u).Ok bs delivered taken := by
  have h' : Holds bs { ip with fwptr := u.uOffset } ip.frptr u.uOffset delivered taken :=
    ⟨h.size_nonneg, h.size_le, h.r_lt, h.w_lt, h.apart, h.mapped, h.bytes⟩
  unfold writeEnd
  simp only
  split_ifs
  · exact still_ok h'
  · refine still_ok ⟨h', Or.inr ⟨rfl, ?_⟩⟩
    have := hfits.2
    simp only
    omega
  · exact still_ok h'

/-- **One piece of a call.** -/
theorem piece_ok {c : Call} (h : c.Ok bs ip delivered taken) (hw : c.Works bs ip env) :
    (piece bs.bsize ip c env).Ok bs delivered taken := by
  obtain ⟨place, u⟩ := c
  cases place with
  | readWhile => exact readWhile_ok h.1
  | readDo =>
    obtain ⟨htaken, hfw, c, hnext, hplace, hholds⟩ := readDo_holds h hw
    unfold Piece.Ok piece
    simp only [hnext, htaken, append_nil]
    unfold Call.Ok
    rcases hplace with hp | hp <;> simp only [hp, hfw] <;> exact hholds
  | readEnd => exact readEnd_ok h
  | writeWhile =>
    obtain ⟨hholds, hwaits⟩ := h
    rcases hwaits with hp | ⟨-, hbase⟩
    · cases hp
    · exact writeWhile_ok hholds hbase hw
  | writeDo =>
    obtain ⟨hdelivered, hfr, c, hnext, hplace, hholds, hfits⟩ := writeDo_holds h.1 h.2 hw.1 hw.2
    unfold Piece.Ok piece
    simp only [hnext, hdelivered, append_nil]
    unfold Call.Ok
    rcases hplace with hp | hp <;> simp only [hp, hfr] <;> exact ⟨hholds, hfits⟩
  | writeEnd => exact writeEnd_ok h.1 h.2

/-! ## Runs -/

/-- The pipe and the calls on it. -/
structure Sound (bs : BlockSize) (s : Pipe) : Prop where
  ring : match s.locked with
    | none => Holds bs s.ip s.ip.frptr s.ip.fwptr s.delivered s.taken
    | some c => c.Ok bs s.ip s.delivered s.taken
  waits : ∀ c ∈ s.asleep, c.Waits

/-- Nothing fails in the piece that runs. -/
def Works (bs : BlockSize) (s : Pipe) : PipeEvent → Prop
  | .go env => ∀ c, s.locked = some c → c.Works bs s.ip env
  | _ => True

theorem Sound.step {s t : Pipe} {e : PipeEvent} (h : Sound bs s) (hw : Works bs s e)
    (he : s.step bs e = some t) : Sound bs t := by
  obtain ⟨hring, hwaits⟩ := h
  cases e with
  | read uCount uOffset fndelay fnonb =>
    simp only [Pipe.step] at he
    split_ifs at he with hfree
    · cases he
      exact ⟨hring, hwaits⟩
    · cases he
      exact ⟨hring, hwaits⟩
    · cases he
      rw [isNone_iff_eq_none.mp hfree.1] at hring
      exact ⟨⟨hring, Or.inl rfl⟩, hwaits⟩
  | write uBase uOffset fndelay fnonb =>
    simp only [Pipe.step] at he
    split_ifs at he with hfree
    · cases he
      exact ⟨hring, hwaits⟩
    · cases he
      rw [isNone_iff_eq_none.mp hfree.1] at hring
      exact ⟨⟨hring, Or.inr ⟨rfl, le_rfl⟩⟩, hwaits⟩
  | go env =>
    obtain ⟨c, hc, rfl⟩ := map_eq_some_iff.mp he
    rw [hc] at hring
    have hpiece := piece_ok hring (hw c hc)
    unfold Piece.Ok at hpiece
    cases hnext : (piece bs.bsize s.ip c env).next with
    | goOn c' =>
      rw [hnext] at hpiece
      exact ⟨by simpa only [Pipe.after, hnext] using hpiece,
        by simpa only [Pipe.after, hnext] using hwaits⟩
    | sleep c' =>
      rw [hnext] at hpiece
      refine ⟨by simpa only [Pipe.after, hnext] using hpiece.1, fun d hd => ?_⟩
      simp only [Pipe.after, hnext, mem_append, mem_singleton] at hd
      rcases hd with hd | rfl
      · exact hwaits d hd
      · exact hpiece.2
    | ret err =>
      rw [hnext] at hpiece
      exact ⟨by simpa only [Pipe.after, hnext] using hpiece,
        by simpa only [Pipe.after, hnext] using hwaits⟩
  | wake i =>
    simp only [Pipe.step] at he
    split_ifs at he with hfree
    obtain ⟨c, hc, rfl⟩ := map_eq_some_iff.mp he
    rw [isNone_iff_eq_none.mp hfree] at hring
    have hwc := hwaits c (mem_of_getElem? hc)
    refine ⟨?_, fun d hd => hwaits d (mem_of_mem_eraseIdx hd)⟩
    obtain ⟨place, u⟩ := c
    rcases hwc with hp | ⟨hp, hbase⟩
    · obtain rfl : place = .readWhile := hp
      exact ⟨hring, Or.inl rfl⟩
    · obtain rfl : place = .writeWhile := hp
      exact ⟨hring, Or.inr ⟨rfl, hbase⟩⟩

/-- A pipe that no call works on. -/
structure Pipe.Idle (bs : BlockSize) (s : Pipe) : Prop where
  locked : s.locked = none
  asleep : s.asleep = []
  holds : Holds bs s.ip s.ip.frptr s.ip.fwptr s.delivered s.taken

end Fs
