import OpusSysV.Cmd.AsOps

/-!
# Single stepping: `jmporbr` of `os/sig.c`

`procxmt` plants traps where the traced process can go next, which `jmporbr` finds out from the word
of the next instruction.

* `jmporbr` — the routine; all ones stand for -1.
* `transfer` — where an instruction goes if it goes anywhere, from its operands.
* `Right` — what `jmporbr` returns says so, and the traps cover it.
* `Decodes` — when that is so.
-/

namespace Os.Step

open Option BitVec

open Cmd.As List

/-- The registers of the traced process; the first one is always zero. -/
structure Regs where
  r : BitVec 5 → BitVec 32
  zero : r 0 = 0

/-- `jmporbr(addr)`, where `inst` is the word at `addr`. -/
def jmporbr (inst addr : BitVec 32) (u_ar0 : Regs) : BitVec 32 :=
  let op := inst &&& 0xF8000000
  if op = 0xD0000000 ∨ op = 0xD8000000 ∨ op = 0xE8000000 then
    let offset := inst &&& 0xFFFF
    let offset := if offset &&& 0x8000 ≠ 0 then offset ||| 0xFFFF0000 else offset
    (addr + (4 : BitVec 32) * offset) ||| ((inst &&& 0x04000000) >>> 26)
  else if op = 0xC0000000 ∨ op = 0xC8000000 then
    let offset := inst &&& 0x3FFFFFF
    let offset := if offset &&& 0x2000000 ≠ 0 then offset ||| 0xFC000000 else offset
    (addr + (4 : BitVec 32) * offset) ||| ((inst &&& 0x04000000) >>> 26)
  else
    let op := inst &&& 0xFC00C800
    if op = 0xF400C000 ∨ op = 0xF400C800 then
      u_ar0.r ((inst &&& 0x1F).setWidth 5) ||| ((inst &&& 0x400) >>> 10)
    else if op = 0xF000C000 ∧ inst &&& 0xFC1FFF00 = 0xF000D100 then addr + 8
    else -1

/-- The traps that `procxmt` plants, where `addr` is what `jmporbr` returned for `snip`. -/
def traps (snip addr : BitVec 32) : List (BitVec 32) :=
  if addr ≠ -1 then
    [if addr &&& 1 ≠ 0 then snip + 8 else snip + 4, addr &&& 0xFFFFFFFC]
  else [snip + 4]

/-! ## Where an instruction goes -/

/-- A register that an operand names. -/
def Regs.at (u : Regs) (op : BitVec 32) : BitVec 32 := u.r (op.setWidth 5)

/-- The instructions with `.n`: `jsr`, `jmp`, `bsr`, `br`, `bb0`, `bb1`, `bcnd`. -/
def delay (obj : BitVec 32) : Bool :=
  obj ∈ [0xF400CC00#32, 0xF400C400#32, 0xCC000000#32, 0xC4000000#32, 0xD4000000#32, 0xDC000000#32,
    0xEC000000#32]

/-- `tb0`, `tb1` and `tcnd` -/
def TB0 : BitVec 32 := 0xF000D000
def TB1 : BitVec 32 := 0xF000D800
def TCND : BitVec 32 := 0xF000E800

/-- The condition of `tcnd`: `s0z0`, `s0z1`, `s1z0` and `s1z1` are for the sign of the register and
for whether its other bits are zero. -/
def condition (cond v : BitVec 32) : Bool :=
  match v.msb, decide (v.setWidth 31 = 0) with
  | false, false => cond.getLsbD 0
  | false, true => cond.getLsbD 1
  | true, false => cond.getLsbD 2
  | true, true => cond.getLsbD 3

/-- Whether a trap instruction traps. -/
def taken (obj : BitVec 32) (x : Operands) (u : Regs) : Bool :=
  let v := u.at x.op2
  let bit := (x.op1.setWidth 5).toNat
  if obj = TB0 then ! v.getLsbD bit else if obj = TB1 then v.getLsbD bit else condition x.op1 v

/-- A system call is a trap with a vector from 256 on. -/
def syscall (obj : BitVec 32) (x : Operands) (u : Regs) : Bool := taken obj x u && x.op3.getLsbD 8

/-- Where an instruction at `snip` goes: to a register, a displacement in words away, or to the next
instruction but one after a system call without an error. -/
def transfer (form : Form) (obj : BitVec 32) (x : Operands) (u : Regs) (snip : BitVec 32) :
    Option (BitVec 32) :=
  match form with
  | .MONOP1 => some (u.at x.op1)
  | .MONOP2 => some (snip + (4 : BitVec 32) * ((x.op1.sshiftRight 2).setWidth 26).signExtend 32)
  | .TRIOP5 => some (snip + (4 : BitVec 32) * (x.op3.setWidth 16).signExtend 32)
  | .TRIOP4 => if syscall obj x u then some (snip + 8) else none
  | _ => none

/-- Where it can go, after an instruction in its delay slot. -/
def nexts (form : Form) (obj : BitVec 32) (x : Operands) (u : Regs) (snip : BitVec 32) :
    List (BitVec 32) :=
  match transfer form obj x u snip with
  | none => [snip + 4]
  | some t =>
    match form with
    | .TRIOP5 => [t, if delay obj then snip + 8 else snip + 4]
    | .TRIOP4 => [t, snip + 4]
    | _ => [t]

/-- `jmporbr` tells transfers from other instructions, and where they go; the traps cover it. -/
structure Right (form : Form) (obj : BitVec 32) (x : Operands) (u : Regs) (snip w : BitVec 32) :
    Prop where
  result : match transfer form obj x u snip with
    | none => jmporbr w snip u = -1
    | some t => jmporbr w snip u ≠ -1 ∧
      jmporbr w snip u = (t &&& 0xFFFFFFFE ||| if delay obj then 1 else 0)
  covered : ∀ a ∈ nexts form obj x u snip, a &&& 0xFFFFFFFC ∈ traps snip (jmporbr w snip u)

/-- No jump through a register with an odd value, no `rte`, `ff0`, `ff1` or `tbnd` of registers, and
no system call but by `tb0` of the first register. -/
def Decodes (obj : BitVec 32) (x : Operands) (u : Regs) : Form → Prop
  | .NOOP => False
  | .MONOP1 => if delay obj then u.at x.op1 ||| 1 ≠ -1 else u.at x.op1 &&& 1 = 0
  | .DYAOP1 =>
    (obj = 0xF400EC00 → u.at x.op2 ||| 1 = -1) ∧ (obj = 0xF400E800 → u.at x.op2 = -1)
  | .DYAOP2 => x.type = .REGMD → u.at x.op2 = -1
  | .TRIOP4 => syscall obj x u → obj = TB0 ∧ x.op2.setWidth 5 = 0#5
  | _ => True

/-! ## Words of the text -/

/-- An address of a word. -/
def Aligned (t : BitVec 32) : Prop := t &&& 0xFFFFFFFC = t

theorem aligned_and (nip : BitVec 32) : Aligned (nip &&& 0xFFFFFFFC) := by
  unfold Aligned
  rw [BitVec.and_assoc, BitVec.and_self]

theorem aligned_shift (y : BitVec 32) : Aligned (y <<< 2) := by
  unfold Aligned
  rw [show (0xFFFFFFFC : BitVec 32) = allOnes 32 <<< 2 by decide,
    ← shiftLeft_and_distrib, and_allOnes]

/-- A displacement in words. -/
theorem Aligned.add {t : BitVec 32} (h : Aligned t) (y : BitVec 32) : Aligned (t + 4 * y) := by
  have hfour : ∀ z : BitVec 32, z <<< 2 = 4 * z := fun z => by
    rw [shiftLeft_eq_mul_twoPow, BitVec.mul_comm]
    rfl
  have ht : t = 4 * (t >>> (2 : ℕ) : BitVec 32) := by
    rw [← hfour, ← h]
    refine eq_of_getLsbD_eq fun i hi => ?_
    have hmask : ∀ i < 32, (0xFFFFFFFC : BitVec 32).getLsbD i = decide (2 ≤ i) := by decide
    rw [getLsbD_and, hmask i hi, getLsbD_shiftLeft, getLsbD_ushiftRight,
      getLsbD_and, decide_eq_true hi]
    rcases Nat.lt_or_ge i 2 with hi2 | hi2
    · rw [decide_eq_false (by omega), decide_eq_true hi2, Bool.and_false, Bool.not_true,
        Bool.and_false, Bool.false_and]
    · rw [decide_eq_true hi2, decide_eq_false (Nat.not_lt.2 hi2), Nat.add_sub_cancel' hi2,
        hmask i hi, decide_eq_true hi2, Bool.and_true, Bool.not_false, Bool.and_self, Bool.true_and]
  rw [ht, ← BitVec.mul_add, ← hfour]
  exact aligned_shift _

/-- Bit 0 of an address is free for the flag. -/
theorem Aligned.flag {t d : BitVec 32} (h : Aligned t) (hd : d = 0 ∨ d = 1) :
    t &&& 0xFFFFFFFE = t ∧ (t ||| d) &&& 0xFFFFFFFC = t ∧ (t ||| d) &&& 1 = d ∧ t ||| d ≠ -1 := by
  have hand : ∀ m, t &&& m = t &&& (0xFFFFFFFC &&& m) := fun m => by rw [← BitVec.and_assoc, h]
  have hzero : ∀ m, 0xFFFFFFFC &&& m = 0#32 → (t ||| d) &&& m = d &&& m := fun m hm => by
    rw [and_or_distrib_right, hand, hm, and_zero, zero_or]
  refine ⟨?_, ?_, ?_, fun hall => ?_⟩
  · rw [hand]
    exact h
  · rw [and_or_distrib_right, h]
    rcases hd with rfl | rfl
    · exact or_zero
    · exact or_zero
  · rw [hzero 1 (by decide)]
    rcases hd with rfl | rfl <;> rfl
  · have htwo := hzero 2 (by decide)
    rw [hall] at htwo
    rcases hd with rfl | rfl
    · exact absurd htwo (by decide)
    · exact absurd htwo (by decide)

section right

variable {form : Form} {obj w snip : BitVec 32} {x : Operands} {u : Regs}

/-- The flag of an instruction. -/
def flag (obj : BitVec 32) : BitVec 32 := if delay obj then 1 else 0

theorem flag_cases (obj : BitVec 32) : flag obj = 0 ∨ flag obj = 1 := by
  unfold flag
  split_ifs
  · exact .inr rfl
  · exact .inl rfl

/-- **The traps cover** what the result says. -/
theorem right_iff (hobj : obj ∈ opcodes form) (hs : Aligned snip) : Right form obj x u snip w ↔
    match transfer form obj x u snip with
    | none => jmporbr w snip u = -1
    | some t => jmporbr w snip u ≠ -1 ∧ jmporbr w snip u = (t &&& 0xFFFFFFFE ||| flag obj) := by
  refine ⟨fun h => h.result, fun h => ⟨h, ?_⟩⟩
  have hadd : ∀ k, (snip + 4 * k) &&& 0xFFFFFFFC = snip + 4 * k := fun k => hs.add k
  intro a ha
  unfold nexts at ha
  cases ht : transfer form obj x u snip with
  | none =>
    rw [ht] at h ha
    rw [mem_singleton.1 ha, h]
    exact mem_singleton.2 (hadd 1)
  | some t =>
    rw [ht] at h ha
    dsimp only at h ha
    obtain ⟨hne, heq⟩ := h
    have hflag := flag_cases obj
    -- the two traps
    have htarget : jmporbr w snip u &&& 0xFFFFFFFC = t &&& 0xFFFFFFFC := by
      rw [heq, and_or_distrib_right, BitVec.and_assoc]
      rcases hflag with hf | hf
      · rw [hf]
        exact or_zero
      · rw [hf]
        exact or_zero
    have hbit : jmporbr w snip u &&& 1 = flag obj := by
      rw [heq, and_or_distrib_right, BitVec.and_assoc,
        show (0xFFFFFFFE &&& 1 : BitVec 32) = 0#32 by decide, and_zero, zero_or]
      rcases hflag with hf | hf <;> rw [hf] <;> rfl
    have htraps : traps snip (jmporbr w snip u) =
        [if delay obj then snip + 8 else snip + 4, t &&& 0xFFFFFFFC] := by
      unfold traps
      rw [if_pos hne, htarget, hbit]
      unfold flag
      cases delay obj <;> rfl
    rw [htraps]
    have hmem : t &&& 0xFFFFFFFC ∈ [if delay obj then snip + 8 else snip + 4, t &&& 0xFFFFFFFC] :=
      mem_cons_of_mem _ (mem_singleton_self _)
    cases form with
    | TRIOP5 =>
      rcases mem_cons.1 ha with rfl | ha
      · exact hmem
      · rw [mem_singleton.1 ha]
        refine mem_cons.2 (.inl ?_)
        split_ifs
        · exact hadd 2
        · exact hadd 1
    | TRIOP4 =>
      rcases mem_cons.1 ha with rfl | ha
      · exact hmem
      · have hplain : (opcodes .TRIOP4).all (fun o => ! delay o) = true := by decide
        have hobj' := Bool.not_eq_true' _ ▸ all_eq_true.1 hplain obj hobj
        rw [mem_singleton.1 ha, hobj', if_neg Bool.false_ne_true]
        exact mem_cons.2 (.inl (hadd 1))
    | _ =>
      rw [mem_singleton.1 ha]
      exact hmem

end right

/-! ## The words of the table -/

/-- The opcodes that `jmporbr` takes for no jump, where the word has the bits of `obj` under `m`. -/
def NoJump (m obj : BitVec 32) : Bool :=
  m &&& 0xFC000000 = 0xFC000000 ∧
    obj &&& 0xF8000000 ∉ [0xD0000000#32, 0xD8000000#32, 0xE8000000#32, 0xC0000000#32, 0xC8000000#32] ∧
    (obj &&& 0xFC000000 ∉ [0xF4000000#32, 0xF0000000#32] ∨ m &&& 0xFC00C800 = 0xFC00C800 ∧
      obj &&& 0xFC00C800 ∉ [0xF400C000#32, 0xF400C800#32, 0xF000C000#32])

section words

variable {m obj w addr : BitVec 32} {x : Operands} {u : Regs}

theorem noJump (h : NoJump m obj = true) (hw : Under m obj w) (addr : BitVec 32) (u : Regs) :
    jmporbr w addr u = -1 := by
  unfold NoJump at h
  obtain ⟨hm, hbr, hreg⟩ := of_decide_eq_true h
  have hmajor : w &&& 0xFC000000 = obj &&& 0xFC000000 := hw.mono hm
  have hclass : w &&& 0xF8000000 = obj &&& 0xF8000000 := Under.mono hmajor (by decide)
  have hsub : w &&& 0xFC00C800 ∉ [0xF400C000#32, 0xF400C800#32, 0xF000C000#32] := by
    rcases hreg with hreg | ⟨hm', hreg⟩
    · intro hmem
      refine hreg ?_
      have hsmaller : w &&& 0xFC00C800 &&& 0xFC000000 = obj &&& 0xFC000000 := by
        rw [← hmajor, BitVec.and_assoc]
        rfl
      rw [← hsmaller]
      simp only [mem_cons, not_mem_nil, or_false] at hmem
      rcases hmem with hv | hv | hv <;> rw [hv] <;> decide
    · rwa [show w &&& 0xFC00C800 = obj &&& 0xFC00C800 from hw.mono hm']
  rw [← hclass] at hbr
  simp only [mem_cons, not_mem_nil, or_false] at hbr hsub
  push Not at hbr hsub
  obtain ⟨h1, h2, h3, h4, h5⟩ := hbr
  obtain ⟨h6, h7, h8⟩ := hsub
  unfold jmporbr
  dsimp only
  rw [if_neg (by tauto), if_neg (by tauto), if_neg (by tauto), if_neg (by tauto)]

/-- A word with an immediate operand. -/
theorem generate_noJump (y : BitVec 32) (h : NoJump 0xFC000000 obj = true)
    (hw : Under 0xFC000000 obj w) (addr : BitVec 32) (u : Regs) :
    jmporbr (generate 16 w y) addr u = -1 :=
  noJump h (hw.generate (by decide) (by decide) y) addr u

theorem immediate_noJump {mask : BitVec 32} (h : NoJump 0xFC000000 (obj &&& mask) = true)
    (he : immediate obj mask x = some w) (addr : BitVec 32) (u : Regs) :
    jmporbr w addr u = -1 := by
  unfold immediate at he
  split_ifs at he
  obtain rfl := some_inj.1 he
  exact generate_noJump _ h ((Under.refl _ _).or (regs_under x (by decide) (by decide))) addr u

/-- A word with three registers. -/
theorem three_noJump (x : Operands) (y : BitVec 32)
    (h : NoJump 0xFC00C800 (obj ||| 0xF4000000) = true) (addr : BitVec 32) (u : Regs) :
    jmporbr (obj ||| (0xF4000000 ||| field y 0x1F 0) ||| regs x) addr u = -1 := by
  refine noJump h (Under.or (Under.both (.refl _ _) (Under.or (.refl _ _) ?_)) ?_) addr u
  · exact field_under y (by decide)
  · exact regs_under x (by decide) (by decide)

theorem arith_noJump (h : NoJump 0xFC000000 (obj &&& 0xFFFF0000) = true)
    (h' : NoJump 0xFC00C800 (obj &&& 0xFFFF ||| 0xF4000000) = true)
    (he : arith obj x = some w) (addr : BitVec 32) (u : Regs) : jmporbr w addr u = -1 := by
  unfold arith at he
  cases htype : x.type with
  | ABSMD =>
    rw [htype] at he
    exact immediate_noJump h he addr u
  | REGMD =>
    rw [htype] at he
    dsimp only at he
    unfold register at he
    split_ifs at he
    obtain rfl := some_inj.1 he
    exact three_noJump x x.op3 h' addr u
  | REGMDS =>
    rw [htype] at he
    exact nomatch he

theorem access_noJump (h : NoJump 0xFC000000 (obj &&& 0xFF000000) = true)
    (h' : NoJump 0xFC00C800 (obj &&& 0xFF00 ||| 0xF4000000) = true)
    (h'' : NoJump 0xFC00C800 (obj <<< 8 &&& 0xFF00 ||| 0xF4000000) = true)
    (he : access obj x = some w) (addr : BitVec 32) (u : Regs) : jmporbr w addr u = -1 := by
  unfold access at he
  cases htype : x.type with
  | ABSMD =>
    rw [htype] at he
    exact immediate_noJump h he addr u
  | REGMD =>
    rw [htype] at he
    dsimp only at he
    rw [if_neg (by rintro ⟨h, -⟩; exact nomatch h)] at he
    obtain rfl := some_inj.1 he
    exact three_noJump x x.op3 h' addr u
  | REGMDS =>
    rw [htype] at he
    dsimp only at he
    obtain rfl := some_inj.1 he
    split_ifs
    · exact three_noJump x x.op3 h'' addr u
    · exact three_noJump x x.op3 h' addr u

/-- The groups without a transfer, and without a word that is taken for one. -/
def plain : List Form := [.DYAOP3, .DYAOP4, .TRIOP1, .TRIOP2, .TRIOP3, .TRIOP6, .TRIOP7, .TRIOP8,
  .TRIOP9, .TRIOP10]

/-- What has to be looked at in the table. -/
def checked (obj : BitVec 32) : Form → Bool
  | .TRIOP2 => NoJump 0xFC00C800 obj && NoJump 0xFC00C800 (obj ||| 0x04000000)
  | .TRIOP3 | .TRIOP9 => NoJump 0xFC000000 (obj &&& 0xFFFF0000) &&
      NoJump 0xFC00C800 (obj &&& 0xFFFF ||| 0xF4000000)
  | .TRIOP6 | .TRIOP10 => NoJump 0xFC000000 (obj &&& 0xFF000000) &&
      NoJump 0xFC00C800 (obj &&& 0xFF00 ||| 0xF4000000) &&
      NoJump 0xFC00C800 (obj <<< 8 &&& 0xFF00 ||| 0xF4000000)
  | _ => NoJump 0xFC00C800 obj

theorem all_checked : (plain.all fun form => (opcodes form).all (checked · form)) = true := by
  decide +kernel

/-- **The other groups** are told from jumps. -/
theorem plain_noJump {form : Form} (hform : form ∈ plain) (hobj : obj ∈ opcodes form)
    (he : Cmd.As.encode obj x form = some w) (addr : BitVec 32) (u : Regs) : jmporbr w addr u = -1 := by
  have hcheck : checked obj form = true :=
    all_eq_true.1 (all_eq_true.1 all_checked form hform) obj hobj
  have hregs : regs x &&& 0xFC00C800 = 0#32 := regs_under x (by decide) (by decide)
  cases form with
  | NOOP | MONOP1 | MONOP2 | DYAOP1 | DYAOP2 | TRIOP4 | TRIOP5 => exact absurd hform (by decide)
  | DYAOP3 =>
    obtain rfl := some_inj.1 he
    exact noJump hcheck (((Under.refl _ _).or (field_under _ (by decide))).or
      (field_under _ (by decide))) addr u
  | DYAOP4 =>
    obtain rfl := some_inj.1 he
    exact noJump hcheck ((((Under.refl _ _).or (field_under _ (by decide))).or
      (field_under _ (by decide))).or (field_under _ (by decide))) addr u
  | TRIOP1 =>
    obtain rfl := some_inj.1 he
    exact noJump hcheck (((Under.refl _ _).or hregs).or (field_under _ (by decide))) addr u
  | TRIOP2 =>
    obtain ⟨h1, h2⟩ := (Bool.and_eq_true _ _).mp hcheck
    unfold Cmd.As.encode at he
    cases htype : x.type with
    | REGMD =>
      rw [htype] at he
      obtain rfl := some_inj.1 he
      exact noJump h2 (((Under.refl _ _).or hregs).both
        ((Under.refl _ _).or (field_under _ (by decide)))) addr u
    | ABSMD =>
      rw [htype] at he
      obtain rfl := some_inj.1 he
      exact noJump h1 (((Under.refl _ _).or hregs).generate (by decide) (by decide) _) addr u
    | REGMDS =>
      rw [htype] at he
      exact nomatch he
  | TRIOP3 | TRIOP9 =>
    obtain ⟨h1, h2⟩ := (Bool.and_eq_true _ _).mp hcheck
    exact arith_noJump h1 h2 he addr u
  | TRIOP6 | TRIOP10 =>
    obtain ⟨h12, h3⟩ := (Bool.and_eq_true _ _).mp hcheck
    obtain ⟨h1, h2⟩ := (Bool.and_eq_true _ _).mp h12
    exact access_noJump h1 h2 h3 he addr u
  | TRIOP7 =>
    obtain rfl := some_inj.1 he
    exact noJump hcheck ((((Under.refl _ _).or hregs).or (field_under _ (by decide))).or
      (field_under _ (by decide))) addr u
  | TRIOP8 =>
    unfold Cmd.As.encode at he
    cases htype : x.type with
    | REGMDS =>
      rw [htype] at he
      obtain rfl := some_inj.1 he
      exact noJump hcheck (((Under.refl _ _).or hregs).or (field_under _ (by decide))) addr u
    | REGMD =>
      rw [htype] at he
      obtain rfl := some_inj.1 he
      exact noJump (m := 0xFC00C800) (by decide) (((Under.refl _ _).or hregs).or
        (field_under _ (by decide))) addr u
    | ABSMD =>
      rw [htype] at he
      obtain rfl := some_inj.1 he
      exact generate_noJump _ (by decide)
        ((Under.refl _ _).or (regs_under x (by decide) (by decide))) addr u

/-! ## The other words -/

/-- A word that is taken for a jump through the register in its lowest bits. -/
theorem register_jump (hw : Under 0xFC00CC00 obj w)
    (hobj : obj &&& 0xFC00C800 = 0xF400C000 ∨ obj &&& 0xFC00C800 = 0xF400C800)
    (addr : BitVec 32) (u : Regs) : jmporbr w addr u =
      (u.r ((w &&& 0x1F).setWidth 5) ||| ((obj &&& 0x400) >>> 10)) := by
  have hsub : w &&& 0xFC00C800 = obj &&& 0xFC00C800 := hw.mono (by decide)
  have hflag : w &&& 0x400 = obj &&& 0x400 := hw.mono (by decide)
  have hclass : w &&& 0xF8000000 = 0xF0000000 := by
    have hv : w &&& 0xFC00C800 &&& 0xF8000000 = w &&& 0xF8000000 := by
      rw [BitVec.and_assoc]
      rfl
    rw [← hv, hsub]
    rcases hobj with h | h <;> rw [h] <;> rfl
  unfold jmporbr
  dsimp only
  rw [hclass, if_neg (by decide), if_neg (by decide), hsub, if_pos hobj, hflag]

/-- A field of `k` bits as a displacement. -/
theorem signed {k : ℕ} {lo bit hi : BitVec 32} (w : BitVec 32) (hk : 0 < k) (hk' : k ≤ 32)
    (hlo : ∀ i < 32, lo.getLsbD i = decide (i < k)) (hhi : ∀ i < 32, hi.getLsbD i = decide (k ≤ i))
    (hbit : bit = twoPow 32 (k - 1)) :
    (if w &&& lo &&& bit ≠ 0 then w &&& lo ||| hi else w &&& lo) =
      (w.setWidth k).signExtend 32 := by
  have hsign : w &&& lo &&& bit ≠ 0 ↔ w.getLsbD (k - 1) = true := by
    rw [hbit, and_twoPow, getLsbD_and, hlo _ (by omega), decide_eq_true (by omega),
      Bool.and_true]
    cases hbit' : w.getLsbD (k - 1) with
    | false => exact ⟨fun h => absurd rfl h, fun h => nomatch h⟩
    | true =>
      refine ⟨fun _ => rfl, fun _ hzero => ?_⟩
      have := congrArg (·.getLsbD (k - 1)) hzero
      rw [if_pos rfl] at this
      simp only [getLsbD_twoPow, ofNat_eq_ofNat, getLsbD_zero] at this
      simp at this
      omega
  refine eq_of_getLsbD_eq fun i hi' => ?_
  rw [getLsbD_signExtend, getLsbD_setWidth, msb_setWidth, decide_eq_true hi',
    decide_eq_true hk, Bool.true_and, Bool.true_and]
  split_ifs with hneg hik hik
  · rw [getLsbD_or, getLsbD_and, hlo i hi', hhi i hi', decide_eq_true hik,
      decide_eq_false (by omega), Bool.and_true, Bool.or_false, Bool.true_and]
  · rw [getLsbD_or, getLsbD_and, hlo i hi', hhi i hi', decide_eq_false hik,
      decide_eq_true (by omega), Bool.or_true, hsign.1 hneg]
  · rw [getLsbD_and, hlo i hi', decide_eq_true hik, Bool.and_true, Bool.true_and]
  · rw [getLsbD_and, hlo i hi', decide_eq_false hik, Bool.and_false]
    exact (Bool.eq_false_iff.2 fun h => hneg (hsign.2 h)).symm

/-- The branches with 26 bits. -/
theorem branch26 (hobj : obj ∈ opcodes .MONOP2) (y addr : BitVec 32) (u : Regs) :
    jmporbr (generate 26 obj y) addr u =
      (addr + (4 : BitVec 32) * (y.setWidth 26).signExtend 32 ||| flag obj) := by
  have hw : Under 0xFC000000 obj (generate 26 obj y) :=
    (Under.refl _ _).generate (by decide) (by decide) y
  obtain ⟨w, hweq⟩ : ∃ w, w = generate 26 obj y := ⟨_, rfl⟩
  rw [← hweq] at hw ⊢
  have hclass : w &&& 0xF8000000 = obj &&& 0xF8000000 := hw.mono (by decide)
  have hflag : w &&& 0x04000000 = obj &&& 0x04000000 := hw.mono (by decide)
  have htable : (opcodes .MONOP2).all (fun o =>
      (o &&& 0xF8000000 = 0xC0000000 ∨ o &&& 0xF8000000 = 0xC8000000) ∧
        (o &&& 0x04000000) >>> 26 = flag o) = true := by decide
  obtain ⟨hop, hn⟩ := of_decide_eq_true (all_eq_true.1 htable obj hobj)
  have hoff := @signed 26 0x3FFFFFF 0x2000000 0xFC000000 w (by decide) (by decide)
    (by decide) (by decide) (by decide)
  unfold jmporbr
  dsimp only
  rw [hclass, if_neg (by rcases hop with h | h <;> rw [h] <;> decide), if_pos hop, hflag, hn, hoff,
    hweq, generate_setWidth _ _ (by decide)]

/-- The branches with 16 bits. -/
theorem branch16 (hobj : obj ∈ opcodes .TRIOP5) (x : Operands) (addr : BitVec 32) (u : Regs) :
    jmporbr (generate 16 (obj ||| regs x) x.op3) addr u =
      (addr + (4 : BitVec 32) * (x.op3.setWidth 16).signExtend 32 ||| flag obj) := by
  have hw : Under 0xFC000000 obj (generate 16 (obj ||| regs x) x.op3) :=
    ((Under.refl _ _).or (regs_under x (by decide) (by decide))).generate (by decide) (by decide) _
  obtain ⟨w, hweq⟩ : ∃ w, w = generate 16 (obj ||| regs x) x.op3 := ⟨_, rfl⟩
  rw [← hweq] at hw ⊢
  have hclass : w &&& 0xF8000000 = obj &&& 0xF8000000 := hw.mono (by decide)
  have hflag : w &&& 0x04000000 = obj &&& 0x04000000 := hw.mono (by decide)
  have htable : (opcodes .TRIOP5).all (fun o =>
      (o &&& 0xF8000000 = 0xD0000000 ∨ o &&& 0xF8000000 = 0xD8000000 ∨
        o &&& 0xF8000000 = 0xE8000000) ∧ (o &&& 0x04000000) >>> 26 = flag o) = true := by decide
  obtain ⟨hop, hn⟩ := of_decide_eq_true (all_eq_true.1 htable obj hobj)
  have hoff := @signed 16 0xFFFF 0x8000 0xFFFF0000 w (by decide) (by decide)
    (by decide) (by decide) (by decide)
  unfold jmporbr
  dsimp only
  rw [hclass, if_pos hop, hflag, hn, hoff, hweq, generate_setWidth _ _ (by decide)]

/-- The traps; `tb0` of the first register with a vector from 256 on is taken for a system call. -/
theorem trap_word (hobj : obj ∈ opcodes .TRIOP4) (x : Operands) (addr : BitVec 32) (u : Regs) :
    jmporbr (obj ||| regs x ||| field x.op3 0x1FF 0) addr u =
      if obj = TB0 ∧ x.op2.setWidth 5 = 0#5 ∧ x.op3.getLsbD 8 = true then addr + 8 else -1 := by
  have hregs : regs x &&& 0xFC00C800 = 0#32 := regs_under x (by decide) (by decide)
  have hw : Under 0xFC00C800 obj (obj ||| regs x ||| field x.op3 0x1FF 0) :=
    ((Under.refl _ _).or hregs).or (field_under _ (by decide))
  by_cases htb0 : obj = TB0
  · -- what is looked at: the bits of the second operand, and the upper bit of the vector
    have hop1 : field x.op1 0x1F 21 &&& 0xFC1FFF00 = 0#32 := field_under _ (by decide)
    have hop2 : field x.op2 0x1F 16 &&& (0xFC1FFF00 : BitVec 32) =
        (x.op2.setWidth 5).setWidth 32 <<< 16 := by
      have hfive : x.op2 &&& 0x1F = (x.op2.setWidth 5).setWidth 32 := by
        have hmask : ∀ i < 32, (0x1F : BitVec 32).getLsbD i = decide (i < 5) := by decide
        refine eq_of_getLsbD_eq fun i hi => ?_
        rw [getLsbD_and, hmask i hi, getLsbD_setWidth, getLsbD_setWidth,
          decide_eq_true hi, Bool.true_and, Bool.and_comm]
      rw [← hfive]
      unfold field
      rw [shiftLeft_and_distrib, BitVec.and_assoc]
      rfl
    have hop3 : field x.op3 0x1FF 0 &&& 0xFC1FFF00 = if x.op3.getLsbD 8 then 0x100 else 0 := by
      unfold field
      rw [shiftLeft_zero, BitVec.and_assoc,
        show (0x1FF &&& 0xFC1FFF00 : BitVec 32) = twoPow 32 8 by decide, and_twoPow]
      rfl
    have hcall : (obj ||| regs x ||| field x.op3 0x1FF 0) &&& 0xFC1FFF00 = 0xF000D100 ↔
        x.op2.setWidth 5 = 0#5 ∧ x.op3.getLsbD 8 = true := by
      unfold regs
      rw [and_or_distrib_right, and_or_distrib_right, and_or_distrib_right,
        hop1, hop2, hop3, zero_or, htb0]
      generalize x.op2.setWidth 5 = a
      cases x.op3.getLsbD 8
      · revert a
        decide
      · revert a
        decide
    have hsub : (obj ||| regs x ||| field x.op3 0x1FF 0) &&& 0xFC00C800 = 0xF000C000 := by
      rw [hw, htb0]
      rfl
    have hclass : (obj ||| regs x ||| field x.op3 0x1FF 0) &&& 0xF8000000 = 0xF0000000 := by
      have hmono : Under 0xF8000000 obj (obj ||| regs x ||| field x.op3 0x1FF 0) :=
        hw.mono (by decide)
      rw [hmono, htb0]
      rfl
    unfold jmporbr
    dsimp only
    rw [hclass, if_neg (by decide), if_neg (by decide), hsub, if_neg (by decide)]
    simp only [htb0, true_and] at hcall ⊢
    simp only [hcall]
  · have htable : (opcodes .TRIOP4).all (fun o => o = TB0 ∨ NoJump 0xFC00C800 o) = true := by decide
    have hno := of_decide_eq_true (all_eq_true.1 htable obj hobj)
    rw [if_neg (fun h => htb0 h.1)]
    exact noJump (hno.resolve_left htb0) hw addr u

end words

/-! ## Every instruction of the table -/

section table

variable {form : Form} {obj w snip : BitVec 32} {x : Operands} {u : Regs}

/-- A jump through a register. -/
theorem jump_right (r : BitVec 32) (n : Bool) :
    ((r ||| if n then 1 else 0) ≠ -1 ∧
      (r ||| if n then 1 else 0) = (r &&& 0xFFFFFFFE ||| if n then 1 else 0)) ↔
    if n then r ||| 1 ≠ -1 else r &&& 1 = 0 := by
  have hsplit : r = r &&& 0xFFFFFFFE ||| r &&& 1 := by
    rw [← and_or_distrib_left]
    exact and_allOnes.symm
  have hbit : r &&& 1 = 0#32 ∨ r &&& 1 = 1#32 := by
    rw [show (1 : BitVec 32) = twoPow 32 0 by rfl, and_twoPow]
    split_ifs
    · exact .inr rfl
    · exact .inl rfl
  cases n with
  | true =>
    rw [if_pos rfl, if_pos rfl]
    refine ⟨fun h => h.1, fun h => ⟨h, ?_⟩⟩
    conv_lhs => rw [hsplit, BitVec.or_assoc]
    rcases hbit with hbit | hbit <;> rw [hbit] <;> rfl
  | false =>
    rw [if_neg Bool.false_ne_true, if_neg Bool.false_ne_true]
    have hor : r ||| 0 = r := or_zero
    have hor' : r &&& 0xFFFFFFFE ||| 0 = r &&& 0xFFFFFFFE := or_zero
    rw [hor, hor']
    refine ⟨fun h => ?_, fun h => ⟨fun hall => ?_, ?_⟩⟩
    · rw [h.2, BitVec.and_assoc]
      exact and_zero
    · rw [hall] at h
      exact absurd h (by decide)
    · conv_lhs => rw [hsplit, h]
      exact or_zero

/-- What `jmporbr` says of a word, by the groups. -/
theorem word_right (hobj : obj ∈ opcodes form) (he : Cmd.As.encode obj x form = some w)
    (hs : Aligned snip) : Right form obj x u snip w ↔ Decodes obj x u form := by
  rw [right_iff hobj hs]
  cases form with
  | NOOP =>
    obtain rfl := mem_singleton.1 hobj
    obtain rfl := some_inj.1 he
    have hval : jmporbr 0xF400FC00 snip u = 1 := by
      rw [register_jump (.refl _ _) (by decide)]
      exact congrArg (· ||| _) u.zero
    dsimp only [transfer, Decodes]
    rw [hval]
    decide
  | MONOP1 =>
    obtain rfl := some_inj.1 he
    have htable : (opcodes .MONOP1).all (fun o => (o &&& 0x1F = 0#32) ∧
        (o &&& 0xFC00C800 = 0xF400C000 ∨ o &&& 0xFC00C800 = 0xF400C800) ∧
        (o &&& 0x400) >>> 10 = flag o) = true := by decide
    obtain ⟨hlow, hclass, hflag⟩ := of_decide_eq_true (all_eq_true.1 htable obj hobj)
    have hval : jmporbr (obj ||| field x.op1 0x1F 0) snip u = (u.at x.op1 ||| flag obj) := by
      rw [register_jump ((Under.refl _ _).or (field_under _ (by decide))) hclass, hflag,
        low_register _ hlow]
      rfl
    dsimp only [transfer, Decodes]
    rw [hval]
    exact jump_right (u.at x.op1) (delay obj)
  | MONOP2 =>
    obtain rfl := some_inj.1 he
    dsimp only [transfer, Decodes]
    rw [branch26 hobj]
    obtain ⟨h1, -, -, h4⟩ := (hs.add _).flag (flag_cases obj)
    exact ⟨fun _ => trivial, fun _ => ⟨h4, by rw [h1]⟩⟩
  | TRIOP5 =>
    obtain rfl := some_inj.1 he
    dsimp only [transfer, Decodes]
    rw [branch16 hobj]
    obtain ⟨h1, -, -, h4⟩ := (hs.add _).flag (flag_cases obj)
    exact ⟨fun _ => trivial, fun _ => ⟨h4, by rw [h1]⟩⟩
  | DYAOP1 =>
    obtain rfl := some_inj.1 he
    have hw : ∀ m : BitVec 32, (0x1F : BitVec 32) <<< 21 &&& m = 0#32 → 0x1F &&& m = 0#32 →
        Under m obj (obj ||| field x.op1 0x1F 21 ||| field x.op2 0x1F 0) := fun m h h' =>
      ((Under.refl _ _).or (field_under _ h)).or (field_under _ h')
    have hval : obj &&& 0x1F = 0#32 → obj &&& 0xFC00C800 = 0xF400C800 →
        jmporbr (obj ||| field x.op1 0x1F 21 ||| field x.op2 0x1F 0) snip u =
          (u.at x.op2 ||| ((obj &&& 0x400) >>> 10)) := fun hlow hclass => by
      rw [register_jump (hw _ (by decide) (by decide)) (.inr hclass), low_register]
      · rfl
      · rw [and_or_distrib_right, hlow, field_under _ (by decide), or_zero]
    dsimp only [transfer, Decodes]
    by_cases hff0 : obj = 0xF400EC00
    · subst hff0
      rw [hval (by decide) (by decide)]
      exact ⟨fun h => ⟨fun _ => h, fun h => absurd h (by decide)⟩, fun h => h.1 rfl⟩
    by_cases hff1 : obj = 0xF400E800
    · subst hff1
      rw [hval (by decide) (by decide)]
      have hor : u.at x.op2 ||| 0 = u.at x.op2 := or_zero
      rw [show ((0xF400E800 : BitVec 32) &&& 0x400) >>> 10 = 0 by decide, hor]
      exact ⟨fun h => ⟨fun h => absurd h (by decide), fun _ => h⟩, fun h => h.2 rfl⟩
    · have htable : (opcodes .DYAOP1).all (fun o => o = 0xF400EC00 ∨ o = 0xF400E800 ∨
          NoJump 0xFC00C800 o) = true := by decide
      have hno := of_decide_eq_true (all_eq_true.1 htable obj hobj)
      exact ⟨fun _ => ⟨fun h => absurd h hff0, fun h => absurd h hff1⟩,
        fun _ => noJump ((hno.resolve_left hff0).resolve_left hff1) (hw _ (by decide) (by decide)) _ _⟩
  | DYAOP2 =>
    obtain rfl := mem_singleton.1 hobj
    unfold Cmd.As.encode at he
    dsimp only [transfer, Decodes]
    cases htype : x.type with
    | ABSMD =>
      rw [htype] at he
      dsimp only at he
      split_ifs at he
      obtain rfl := some_inj.1 he
      refine ⟨fun _ => nofun, fun _ => ?_⟩
      exact generate_noJump _ (by decide) ((Under.refl _ _).or (field_under _ (by decide))) _ _
    | REGMD =>
      rw [htype] at he
      dsimp only at he
      split_ifs at he
      obtain rfl := some_inj.1 he
      have hval : jmporbr (0xF800F800 &&& 0xFFFF ||| (0xF4000000 ||| field x.op2 0x1F 0) |||
          field x.op1 0x1F 16) snip u = u.at x.op2 := by
        rw [show (0xF800F800 &&& 0xFFFF ||| (0xF4000000 ||| field x.op2 0x1F 0) |||
          field x.op1 0x1F 16) = 0xF400F800 ||| field x.op1 0x1F 16 ||| field x.op2 0x1F 0 from ?_]
        · rw [register_jump (((Under.refl _ _).or (field_under _ (by decide))).or
            (field_under _ (by decide))) (by decide), low_register]
          · exact or_zero
          · rw [and_or_distrib_right, field_under _ (by decide)]
            rfl
        · rw [← BitVec.or_assoc, BitVec.or_assoc, BitVec.or_comm (field x.op2 0x1F 0),
            ← BitVec.or_assoc]
          rfl
      rw [hval]
      exact ⟨fun h _ => h, fun h => h rfl⟩
    | REGMDS =>
      rw [htype] at he
      exact nomatch he
  | TRIOP4 =>
    obtain rfl := some_inj.1 he
    have hplain : (opcodes .TRIOP4).all (fun o => flag o = 0) = true := by decide
    have hflag : flag obj = 0 := of_decide_eq_true (all_eq_true.1 hplain obj hobj)
    -- `tb0` of the first register traps
    have hcall : obj = TB0 → x.op2.setWidth 5 = 0#5 → x.op3.getLsbD 8 = true →
        syscall obj x u = true := fun htb0 hop2 hop3 => by
      unfold syscall taken Regs.at
      have hzero : u.r 0#5 = 0 := u.zero
      rw [if_pos htb0, hop2, hop3, hzero]
      simp
    dsimp only [transfer, Decodes]
    rw [trap_word hobj x snip u]
    cases hsys : syscall obj x u with
    | false =>
      rw [if_neg Bool.false_ne_true]
      dsimp only
      rw [if_neg fun h => Bool.false_ne_true (hsys.symm.trans (hcall h.1 h.2.1 h.2.2))]
      exact ⟨fun _ => nofun, fun _ => rfl⟩
    | true =>
      have hop3 : x.op3.getLsbD 8 = true := ((Bool.and_eq_true _ _).mp hsys).2
      obtain ⟨h1, -, -, h4⟩ := (hs.add 2).flag (.inl rfl)
      have hor : ∀ t : BitVec 32, t ||| 0 = t := fun t => or_zero
      rw [hor] at h4
      rw [if_pos rfl, hflag]
      dsimp only
      rw [hor]
      split_ifs with h
      · exact ⟨fun _ _ => ⟨h.1, h.2.1⟩, fun _ => ⟨h4, h1.symm⟩⟩
      · exact ⟨fun h' => absurd rfl h'.1, fun h' => absurd ⟨(h' rfl).1, (h' rfl).2, hop3⟩ h⟩
  | _ =>
    dsimp only [transfer, Decodes]
    exact ⟨fun _ => trivial, fun _ => plain_noJump (by decide) hobj he snip u⟩

/-- **Every instruction of the table**, wherever `procxmt` finds it: what `jmporbr` says of it is
right, and the traps cover where it goes, just if it is none of those that are decoded wrongly. -/
theorem jmporbr_right (form : Form) (obj : BitVec 32) (x : Operands) (u : Regs) (nip w : BitVec 32)
    (hobj : obj ∈ opcodes form) (he : Cmd.As.encode obj x form = some w) :
    Right form obj x u (nip &&& 0xFFFFFFFC) w ↔ Decodes obj x u form :=
  word_right hobj he (aligned_and nip)

/-- Register 3 holds an address of the data. -/
def dataRegs : Regs := ⟨fun k => if k = 3 then 0x00402000 else 0, rfl⟩

/-- `br` two words on. -/
theorem jmporbr_right_br : Right .MONOP2 0xC0000000 ⟨8, 0, 0, .ABSMD⟩ dataRegs
    (0x10002 &&& 0xFFFFFFFC) 0xC0000002 ↔ Decodes 0xC0000000 ⟨8, 0, 0, .ABSMD⟩ dataRegs .MONOP2 :=
  jmporbr_right .MONOP2 0xC0000000 ⟨8, 0, 0, .ABSMD⟩ dataRegs 0x10002 0xC0000002 (by decide)
    (by decide)

/-- `ff0 r2,r3` is taken for a jump to the data, and the next instruction gets no trap. -/
theorem jmporbr_ff0 :
    Cmd.As.encode 0xF400EC00 ⟨2, 3, 0, .REGMD⟩ .DYAOP1 = some 0xF440EC03 ∧
      transfer .DYAOP1 0xF400EC00 ⟨2, 3, 0, .REGMD⟩ dataRegs 0x10000 = none ∧
      jmporbr 0xF440EC03 0x10000 dataRegs = 0x00402001 ∧
      traps 0x10000 0x00402001 = [0x10008, 0x00402000] ∧
      ¬ Right .DYAOP1 0xF400EC00 ⟨2, 3, 0, .REGMD⟩ dataRegs 0x10000 0xF440EC03 := by
  refine ⟨by decide, rfl, by decide, by decide, fun h => ?_⟩
  have hminus : jmporbr 0xF440EC03 0x10000 dataRegs = -1 := h.result
  exact absurd hminus (by decide)

end table

end Os.Step
