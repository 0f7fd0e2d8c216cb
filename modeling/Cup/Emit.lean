/-
  The instruction emitters of the code generator (`src/codegen/x64codegen.c`) and their
  encodings.

  An `emit_…` of the source is the list of the bytes it appends to the buffer. Registers go into
  the instructions by their number; an `int32_t` is an integer, and its bytes are those of its
  two's complement. `Code` lemmas say which instruction the processor reads from the bytes.
-/
import Cup.Token
import Cup.Lib.X64Code

namespace Cup

open Lib.X64 (Reg Word Instr Cond Alu Code Rex leBytes)

/-- `X64Reg` without `ANY`, which is `none` where it can stand. -/
abbrev X64Reg := Reg

/-- `INT32_MAX`. -/
def int32Max : Nat := 2 ^ 31 - 1

/-- `(int32_t)n` of a `size_t`. -/
def toInt32 (n : Nat) : Int := Int.bmod n (2 ^ 32)

/-- `emit8`. -/
def emit8 (v : Nat) : Bytes := [UInt8.ofNat v]

/-- `emit32`. -/
def emit32 (v : Nat) : Bytes := leBytes 4 v

/-- `emiti32`. -/
def emiti32 (v : Int) : Bytes := leBytes 4 (v % 2 ^ 32).toNat

/-- `emit64`. -/
def emit64 (v : Nat) : Bytes := leBytes 8 v

/-- `emit_rex`; the bits of the sum are disjoint. -/
def emitRex (w : Bool) (reg idx rm : Nat) (force : Bool) : Bytes :=
  let rex := 0x40 + (if w then 8 else 0) + (if reg / 8 % 2 = 1 then 4 else 0) +
    (if idx / 8 % 2 = 1 then 2 else 0) + (if rm / 8 % 2 = 1 then 1 else 0)
  if rex ≠ 0x40 ∨ force then emit8 rex else []

/-- `emit_modrm_rr`. -/
def emitModrmRr (reg rm : Nat) : Bytes := emit8 (0xC0 + reg % 8 * 8 + rm % 8)

/-- `mod` of `emit_modrm_mem`. -/
def modOf (base : Nat) (disp : Int) : Nat :=
  if disp = 0 ∧ base % 8 ≠ 5 then 0 else if -128 ≤ disp ∧ disp ≤ 127 then 1 else 2

/-- The displacement that `emit_modrm_mem` writes. -/
def dispBytes (mod : Nat) (disp : Int) : Bytes :=
  if mod = 1 then emit8 (disp % 256).toNat else if mod = 2 then emiti32 disp else []

/-- `emit_modrm_mem`. -/
def emitModrmMem (reg base : Nat) (disp : Int) : Bytes :=
  emit8 (modOf base disp * 64 + reg % 8 * 8 + base % 8) ++
    (if base % 8 = 4 then emit8 0x24 else []) ++ dispBytes (modOf base disp) disp

/-- `emit_rr`. -/
def emitRr (op : Nat) (reg rm : X64Reg) : Bytes :=
  emitRex true reg.num 0 rm.num false ++ emit8 op ++ emitModrmRr reg.num rm.num

/-- `emit_mov_rr`. -/
def emitMovRr (dst src : X64Reg) : Bytes := if dst ≠ src then emitRr 0x89 src dst else []

/-- `emit_load`. -/
def emitLoad (dst base : X64Reg) (disp : Int) : Bytes :=
  emitRex true dst.num 0 base.num false ++ emit8 0x8B ++ emitModrmMem dst.num base.num disp

/-- `emit_store`. -/
def emitStore (base : X64Reg) (disp : Int) (src : X64Reg) : Bytes :=
  emitRex true src.num 0 base.num false ++ emit8 0x89 ++ emitModrmMem src.num base.num disp

/-- `emit_store_imm32`. -/
def emitStoreImm32 (base : X64Reg) (disp imm : Int) : Bytes :=
  emitRex true 0 0 base.num false ++ emit8 0xC7 ++ emitModrmMem 0 base.num disp ++ emiti32 imm

/-- `emit_add_mem_reg`. -/
def emitAddMemReg (base : X64Reg) (disp : Int) (src : X64Reg) : Bytes :=
  emitRex true src.num 0 base.num false ++ emit8 0x01 ++ emitModrmMem src.num base.num disp

/-- `emit_lea_idx8`. -/
def emitLeaIdx8 (dst base index : X64Reg) : Bytes :=
  let mod := if base.num % 8 = 5 then 1 else 0
  emitRex true dst.num index.num base.num false ++ emit8 0x8D ++
    emit8 (mod * 64 + dst.num % 8 * 8 + 4) ++
    emit8 (3 * 64 + index.num % 8 * 8 + base.num % 8) ++ (if mod = 1 then emit8 0 else [])

/-- `emit_mov_imm64`. -/
def emitMovImm64 (reg : X64Reg) (imm : Nat) : Bytes :=
  emitRex true 0 0 reg.num false ++ emit8 (0xB8 + reg.num % 8) ++ emit64 imm

/-- `emit_mov_const`, of a `uint64_t`. -/
def emitMovConst (reg : X64Reg) (imm : Nat) : Bytes :=
  if imm ≤ 2 ^ 32 - 1 then
    emitRex false 0 0 reg.num false ++ emit8 (0xB8 + reg.num % 8) ++ emit32 imm
  else if 2 ^ 64 - 2 ^ 31 ≤ imm then
    emitRex true 0 0 reg.num false ++ emit8 0xC7 ++ emitModrmRr 0 reg.num ++
      emiti32 (toInt32 imm)
  else emitMovImm64 reg imm

/-- `emit_load_rax_abs`. -/
def emitLoadRaxAbs (addr : Nat) : Bytes := emit8 0x48 ++ emit8 0xA1 ++ emit64 addr

/-- `emit_store_rax_abs`. -/
def emitStoreRaxAbs (addr : Nat) : Bytes := emit8 0x48 ++ emit8 0xA3 ++ emit64 addr

/-- `emit_alu_imm`: /0 add, /5 sub, /7 cmp. -/
def emitAluImm (ext : Nat) (reg : X64Reg) (imm : Int) : Bytes :=
  emitRex true 0 0 reg.num false ++
    if -128 ≤ imm ∧ imm ≤ 127 then
      emit8 0x83 ++ emitModrmRr ext reg.num ++ emit8 (imm % 256).toNat
    else emit8 0x81 ++ emitModrmRr ext reg.num ++ emiti32 imm

/-- `emit_add_rr`. -/
def emitAddRr (dst src : X64Reg) : Bytes := emitRr 0x01 src dst

/-- `emit_sub_rr`. -/
def emitSubRr (dst src : X64Reg) : Bytes := emitRr 0x29 src dst

/-- `emit_cmp_rr`. -/
def emitCmpRr (dst src : X64Reg) : Bytes := emitRr 0x39 src dst

/-- `emit_test_rr`. -/
def emitTestRr (a b : X64Reg) : Bytes := emitRr 0x85 b a

/-- `emit_xor32_rr`. -/
def emitXor32Rr (dst src : X64Reg) : Bytes :=
  emitRex false src.num 0 dst.num false ++ emit8 0x31 ++ emitModrmRr src.num dst.num

/-- `emit_imul_imm`. -/
def emitImulImm (reg : X64Reg) (imm : Int) : Bytes :=
  emitRex true reg.num 0 reg.num false ++ emit8 0x69 ++ emitModrmRr reg.num reg.num ++ emiti32 imm

/-- `emit_imul_rr`. -/
def emitImulRr (dst src : X64Reg) : Bytes :=
  emitRex true dst.num 0 src.num false ++ emit8 0x0F ++ emit8 0xAF ++ emitModrmRr dst.num src.num

/-- `emit_shl_imm`. -/
def emitShlImm (reg : X64Reg) (n : Nat) : Bytes :=
  emitRex true 0 0 reg.num false ++ emit8 0xC1 ++ emitModrmRr 4 reg.num ++ emit8 n

/-- `CC_E`, …: the condition codes. -/
def ccOf : Cond → Nat
  | .e => 0x4
  | .ne => 0x5
  | .l => 0xC
  | .ge => 0xD
  | .le => 0xE
  | .g => 0xF

/-- `cc ^ 1`. -/
def negCond : Cond → Cond
  | .e => .ne
  | .ne => .e
  | .l => .ge
  | .ge => .l
  | .le => .g
  | .g => .le

/-- `emit_setcc_zx`. -/
def emitSetccZx (cc : Cond) (reg : X64Reg) : Bytes :=
  emitRex false 0 0 reg.num (4 ≤ reg.num) ++ emit8 0x0F ++ emit8 (0x90 + ccOf cc) ++
    emitModrmRr 0 reg.num ++ emitRex true reg.num 0 reg.num false ++ emit8 0x0F ++ emit8 0xB6 ++
    emitModrmRr reg.num reg.num

/-- The bytes of `emit_push`. -/
def pushBytes (reg : X64Reg) : Bytes :=
  (if 8 ≤ reg.num then emit8 0x41 else []) ++ emit8 (0x50 + reg.num % 8)

/-- The bytes of `emit_pop`. -/
def popBytes (reg : X64Reg) : Bytes :=
  (if 8 ≤ reg.num then emit8 0x41 else []) ++ emit8 (0x58 + reg.num % 8)

/-- `emit_call_reg`. -/
def emitCallReg (reg : X64Reg) : Bytes :=
  emitRex false 0 0 reg.num false ++ emit8 0xFF ++ emitModrmRr 2 reg.num

/-- `emit_ret`. -/
def emitRet : Bytes := emit8 0xC3

/-- `emit8(buf, 0xC9)`, the `leave` of the epilogue. -/
def emitLeave : Bytes := emit8 0xC9

/-- `emit_rsp_adjust`. -/
def emitRspAdjust (delta : Int) : Bytes :=
  emitAluImm (if delta < 0 then 5 else 0) .rsp (if delta < 0 then -delta else delta)

/-- The opcode bytes of `emit_jmp_rel32`. -/
def jmpOpcode : Bytes := emit8 0xE9

/-- The opcode bytes of `emit_jcc_rel32`. -/
def jccOpcode (cc : Cond) : Bytes := emit8 0x0F ++ emit8 (0x80 + ccOf cc)

/-- `nop4`. -/
def nop4 : Bytes := [0x0F, 0x1F, 0x40, 0x00]

end Cup
