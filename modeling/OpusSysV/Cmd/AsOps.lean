import Mathlib.Data.List.Basic

/-!
# The instructions of the m88k assembler

The opcode table of `sgs/as/m88k/ops.in`: for each group of instructions the opcodes, and how the
operands go into the word.

* `Form` — the groups.
* `opcodes` — the table.
* `encode` — the word of an instruction; none where the assembler reports an error.
-/

namespace Cmd.As

/-- The groups of instructions, by their operands. -/
inductive Form where
  | NOOP | MONOP1 | MONOP2 | DYAOP1 | DYAOP2 | DYAOP3 | DYAOP4
  | TRIOP1 | TRIOP2 | TRIOP3 | TRIOP4 | TRIOP5 | TRIOP6 | TRIOP7 | TRIOP8 | TRIOP9 | TRIOP10
  deriving DecidableEq

/-- The table. -/
def opcodes : Form → List (BitVec 32)
  -- rte
  | .NOOP => [0xF400FC00]
  -- jsr jsr.n jmp jmp.n
  | .MONOP1 => [0xF400C800, 0xF400CC00, 0xF400C000, 0xF400C400]
  -- bsr bsr.n br br.n
  | .MONOP2 => [0xC8000000, 0xCC000000, 0xC0000000, 0xC4000000]
  -- ff0 ff1 flt.ss flt.ds int.ss int.sd nint.ss nint.sd trnc.ss trnc.sd
  | .DYAOP1 => [0xF400EC00, 0xF400E800, 0x84002000, 0x84002020, 0x84004800, 0x84004880, 0x84005000,
      0x84005080, 0x84005800, 0x84005880]
  -- tbnd
  | .DYAOP2 => [0xF800F800]
  -- ldcr fldcr eldcr
  | .DYAOP3 => [0x80004000, 0x80004800, 0x80005000]
  -- stcr fstcr estcr
  | .DYAOP4 => [0x80008000, 0x80008800, 0x80009000]
  -- fadd.sss fadd.ssd fadd.sds fadd.sdd fadd.dss fadd.dsd fadd.dds fadd.ddd fsub.sss fsub.ssd
  -- fsub.sds fsub.sdd fsub.dss fsub.dsd fsub.dds fsub.ddd fcmp.sss fcmp.ssd fcmp.sds fcmp.sdd
  -- fmul.sss fmul.ssd fmul.sds fmul.sdd fmul.dss fmul.dsd fmul.dds fmul.ddd fdiv.sss fdiv.ssd
  -- fdiv.sds fdiv.sdd fdiv.dss fdiv.dsd fdiv.dds fdiv.ddd
  | .TRIOP1 => [0x84002800, 0x84002880, 0x84002A00, 0x84002A80, 0x84002820, 0x840028A0, 0x84002A20,
      0x84002AA0, 0x84003000, 0x84003080, 0x84003200, 0x84003280, 0x84003020, 0x840030A0,
      0x84003220, 0x840032A0, 0x84003800, 0x84003880, 0x84003A00, 0x84003A80, 0x84000000,
      0x84000080, 0x84000200, 0x84000280, 0x84000020, 0x840000A0, 0x84000220, 0x840002A0,
      0x84007000, 0x84007080, 0x84007200, 0x84007280, 0x84007020, 0x840070A0, 0x84007220,
      0x840072A0]
  -- clr set ext extu mak rot
  | .TRIOP2 => [0xF0008000, 0xF0008800, 0xF0009000, 0xF0009800, 0xF000A000, 0xF000A800]
  -- addu addu.ci addu.co addu.cio subu subu.ci subu.co subu.cio divu mul cmp adduc subub and
  -- and.c and.u or or.c or.u xor xor.c xor.u mask mask.u
  | .TRIOP3 => [0x60006000, 0x60006200, 0x60006100, 0x60006300, 0x64006400, 0x64006600, 0x64006500,
      0x64006700, 0x68006800, 0x6C006C00, 0x7C007C00, 0x00006300, 0x00006700, 0x40004000,
      0x00004400, 0x44000000, 0x58005800, 0x00005C00, 0x5C000000, 0x50005000, 0x00005400,
      0x54000000, 0x48000000, 0x4C000000]
  -- tb0 tb1 tcnd
  | .TRIOP4 => [0xF000D000, 0xF000D800, 0xF000E800]
  -- bb0 bb0.n bb1 bb1.n bcnd bcnd.n
  | .TRIOP5 => [0xD0000000, 0xD4000000, 0xD8000000, 0xDC000000, 0xE8000000, 0xEC000000]
  -- ld ld.usr ld.b ld.b.usr ld.bu ld.bu.usr ld.d ld.d.usr ld.h ld.h.usr ld.hu ld.hu.usr st
  -- st.usr st.b st.b.usr st.d st.d.usr st.h st.h.usr
  | .TRIOP6 => [0x14001416, 0x00001517, 0x1C001C00, 0x00001D00, 0x0C000C00, 0x00000D00, 0x10001012,
      0x00001113, 0x1800181A, 0x0000191B, 0x0800080A, 0x0000090B, 0x24002426, 0x00002527,
      0x2C002C00, 0x00002D00, 0x20002022, 0x00002123, 0x2800282A, 0x0000292B]
  -- xcr fxcr excr
  | .TRIOP7 => [0x8000C000, 0x8000C800, 0x8000D000]
  -- lda.b lda.h lda lda.d
  | .TRIOP8 => [0xF4003E00, 0xF4003A00, 0xF4003600, 0xF4003200]
  -- add add.ci add.co add.cio sub sub.ci sub.co sub.cio div addc subb
  | .TRIOP9 => [0x70007000, 0x70007200, 0x70007100, 0x70007300, 0x74007400, 0x74007600, 0x74007500,
      0x74007700, 0x78007800, 0x00007200, 0x00007600]
  -- xmem xmem.usr xmem.bu xmem.bu.usr
  | .TRIOP10 => [0x04000406, 0x00000507, 0x00010000, 0x00000100]

/-- The type of the last operand; `EXADMD` is treated like `ABSMD`. -/
inductive OperandType where
  | REGMD | REGMDS | ABSMD
  deriving DecidableEq

/-- The values of the operands, and the type of the last one. -/
structure Operands where
  op1 : BitVec 32
  op2 : BitVec 32
  op3 : BitVec 32
  type : OperandType

/-- `((expval) & mask) << k` -/
def field (expval mask : BitVec 32) (k : ℕ) : BitVec 32 := (expval &&& mask) <<< k

/-- `generate (32 - k, NOACTION, obj >> k, NULLSYM); generate (k, NOACTION, expval, NULLSYM);` -/
def generate (k : ℕ) (obj expval : BitVec 32) : BitVec 32 :=
  (obj >>> k) <<< k ||| (expval &&& (1#32 <<< k - 1))

/-- The first two registers of a word. -/
def regs (x : Operands) : BitVec 32 := field x.op1 0x1F 21 ||| field x.op2 0x1F 16

/-- An immediate operand, where the table has an opcode for it under `mask`. -/
def immediate (obj mask : BitVec 32) (x : Operands) : Option (BitVec 32) :=
  if obj &&& 0xFFFF0000 = 0 then none else some (generate 16 (obj &&& mask ||| regs x) x.op3)

/-- A third register, where the table has an opcode for it. -/
def register (obj : BitVec 32) (x : Operands) : Option (BitVec 32) :=
  if obj &&& 0xFFFF = 0 then none
  else some (obj &&& 0xFFFF ||| (0xF4000000 ||| field x.op3 0x1F 0) ||| regs x)

/-- The operands of an access to memory, `TRIOP6` and `TRIOP10`. -/
def access (obj : BitVec 32) (x : Operands) : Option (BitVec 32) :=
  match x.type with
  | .ABSMD => immediate obj 0xFF000000 x
  | type =>
    let obj := if type = .REGMDS ∧ obj &&& 0xFF ≠ 0 then obj <<< 8 else obj
    some (obj &&& 0xFF00 ||| (0xF4000000 ||| field x.op3 0x1F 0) ||| regs x)

/-- `TRIOP3` and `TRIOP9` -/
def arith (obj : BitVec 32) (x : Operands) : Option (BitVec 32) :=
  match x.type with
  | .ABSMD => immediate obj 0xFFFF0000 x
  | .REGMD => register obj x
  | .REGMDS => none

/-- The word of the instruction with the opcode `obj`. -/
def encode (obj : BitVec 32) (x : Operands) : Form → Option (BitVec 32)
  | .NOOP => some obj
  | .MONOP1 => some (obj ||| field x.op1 0x1F 0)
  | .MONOP2 => some (generate 26 obj (x.op1.sshiftRight 2))
  | .DYAOP1 => some (obj ||| field x.op1 0x1F 21 ||| field x.op2 0x1F 0)
  | .DYAOP2 =>
    match x.type with
    | .ABSMD =>
      if obj &&& 0xFFFF0000 = 0 then none
      else some (generate 16 (obj &&& 0xFFFF0000 ||| field x.op1 0x1F 16) x.op2)
    | .REGMD =>
      if obj &&& 0xFFFF = 0 then none
      else some (obj &&& 0xFFFF ||| (0xF4000000 ||| field x.op2 0x1F 0) ||| field x.op1 0x1F 16)
    | .REGMDS => none
  | .DYAOP3 => some (obj ||| field x.op1 0x1F 21 ||| field x.op2 0x3F 5)
  | .DYAOP4 => some (obj ||| field x.op1 0x1F 16 ||| field x.op1 0x1F 0 ||| field x.op2 0x3F 5)
  | .TRIOP1 => some (obj ||| regs x ||| field x.op3 0x1F 0)
  | .TRIOP2 =>
    match x.type with
    | .REGMD => some (obj ||| regs x ||| (0x04000000 ||| field x.op3 0x1F 0))
    | .ABSMD => some (generate 10 (obj ||| regs x) x.op3)
    | .REGMDS => none
  | .TRIOP3 => arith obj x
  | .TRIOP4 => some (obj ||| regs x ||| field x.op3 0x1FF 0)
  | .TRIOP5 => some (generate 16 (obj ||| regs x) x.op3)
  | .TRIOP6 => access obj x
  | .TRIOP7 => some (obj ||| regs x ||| field x.op2 0x1F 0 ||| field x.op3 0x3F 5)
  | .TRIOP8 =>
    match x.type with
    | .REGMDS => some (obj ||| regs x ||| field x.op3 0x1F 0)
    | .REGMD => some (0xF4006000 ||| regs x ||| field x.op3 0x1F 0)
    | .ABSMD => some (generate 16 (0x60000000 ||| regs x) x.op3)
  | .TRIOP9 => arith obj x
  | .TRIOP10 => access obj x

/-! ## The bits of a word -/

/-- `w` has the bits of `obj` under the mask `m`. -/
def Under (m obj w : BitVec 32) : Prop := w &&& m = obj &&& m

section under

open BitVec

variable {m obj w x mask : BitVec 32} {k : ℕ}

theorem Under.refl (m obj : BitVec 32) : Under m obj obj := rfl

theorem Under.or (h : Under m obj w) (hx : x &&& m = 0#32) : Under m obj (w ||| x) := by
  unfold Under at h ⊢
  rw [and_or_distrib_right, hx, or_zero, h]

theorem Under.both (h : Under m obj w) {obj' w' : BitVec 32} (h' : Under m obj' w') :
    Under m (obj ||| obj') (w ||| w') := by
  unfold Under at h h' ⊢
  rw [and_or_distrib_right, and_or_distrib_right, h, h']

/-- A smaller mask. -/
theorem Under.mono (h : Under m obj w) {m' : BitVec 32} (hm : m &&& m' = m') :
    Under m' obj w := by
  unfold Under at h ⊢
  rw [← hm, ← BitVec.and_assoc, ← BitVec.and_assoc, h]

/-- A field that the mask does not reach. -/
theorem field_under (x : BitVec 32) (h : mask <<< k &&& m = 0#32) :
    field x mask k &&& m = 0#32 := by
  unfold field
  rw [shiftLeft_and_distrib, BitVec.and_assoc, h, and_zero]

theorem regs_under (x : Operands) (h : (0x1F : BitVec 32) <<< 21 &&& m = 0#32)
    (h' : (0x1F : BitVec 32) <<< 16 &&& m = 0#32) : regs x &&& m = 0#32 := by
  unfold regs
  rw [and_or_distrib_right, field_under _ h, field_under _ h', or_zero]

/-- The upper bits of a word that was put together. -/
theorem Under.generate (h : Under m obj w) (hk : (1#32 <<< k - 1) &&& m = 0#32)
    (hm : (m >>> k) <<< k = m) (x : BitVec 32) : Under m obj (generate k w x) := by
  have hlow : ∀ i, i < k → m.getLsbD i = false := fun i hi => by
    rw [← hm, getLsbD_shiftLeft, decide_eq_true hi, Bool.not_true, Bool.and_false,
      Bool.false_and]
  unfold As.generate
  refine Under.or ?_ ?_
  · unfold Under at h ⊢
    rw [← h]
    refine eq_of_getLsbD_eq fun i hi => ?_
    rw [getLsbD_and, getLsbD_and]
    rcases Nat.lt_or_ge i k with hik | hik
    · rw [hlow i hik, Bool.and_false, Bool.and_false]
    · rw [getLsbD_shiftLeft, getLsbD_ushiftRight, decide_eq_true hi,
        decide_eq_false (Nat.not_lt.2 hik), Nat.add_sub_cancel' hik]
      rfl
  · rw [BitVec.and_assoc, hk, and_zero]

/-- The lower bits of a word that was put together. -/
theorem generate_setWidth (w x : BitVec 32)
    (hk : ∀ i < k, (1#32 <<< k - 1).getLsbD i = true) :
    (generate k w x).setWidth k = x.setWidth k := by
  unfold As.generate
  refine eq_of_getLsbD_eq fun i hi => ?_
  rw [getLsbD_setWidth, getLsbD_setWidth, getLsbD_or, getLsbD_shiftLeft,
    getLsbD_and, hk i hi, decide_eq_true hi, Bool.and_true, Bool.not_true, Bool.and_false,
    Bool.false_and, Bool.false_or]

/-- The register in the lowest bits. -/
theorem low_register (y : BitVec 32) {c : BitVec 32} (hc : c &&& 0x1F = 0#32) :
    ((c ||| field y 0x1F 0) &&& 0x1F).setWidth 5 = y.setWidth 5 := by
  unfold field
  rw [and_or_distrib_right, hc, zero_or, shiftLeft_zero, BitVec.and_assoc,
    BitVec.and_self, setWidth_and]
  exact and_allOnes

end under

end Cmd.As
