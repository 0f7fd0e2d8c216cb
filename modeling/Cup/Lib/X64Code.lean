/-
  The machine code of the instructions of `Lib.X64`: `decode` reads one instruction from bytes,
  as the processor does (an optional REX prefix, an opcode, a ModRM byte with its SIB byte and
  displacement, an immediate).

  `Code bytes instrs`: in front of any code, the bytes are read as the instructions.
-/
import Cup.Lib.X64

namespace Lib.X64

/-! ## Parts of an instruction -/

/-- A REX prefix, or its absence. -/
structure Rex where
  present : Bool := false
  w : Bool := false
  r : Bool := false
  x : Bool := false
  b : Bool := false
  deriving DecidableEq, Repr

/-- The prefix in front of an opcode, if there is one. -/
def readRex : List UInt8 → Rex × List UInt8
  | [] => ({}, [])
  | c :: bs =>
    let n := c.toNat
    if n / 16 = 4 then
      (⟨true, n / 8 % 2 = 1, n / 4 % 2 = 1, n / 2 % 2 = 1, n % 2 = 1⟩, bs)
    else ({}, c :: bs)

/-- A register from three bits and its REX bit. -/
def regOf (high : Bool) (n : Nat) : Reg := .ofNum (n % 8 + if high then 8 else 0)

/-- A number of `k` bytes that is sign-extended. -/
def signed (k n : Nat) : Int := Int.bmod n (256 ^ k)

/-- A little-endian number of `k` bytes. -/
def readLe (k : Nat) (bs : List UInt8) : Option (Nat × List UInt8) :=
  if bs.length < k then none else some (ofLe (bs.take k), bs.drop k)

/-- A signed number of `k` bytes. -/
def readSigned (k : Nat) (bs : List UInt8) : Option (Int × List UInt8) :=
  (readLe k bs).map fun (n, bs) => (signed k n, bs)

/-- The fields of a ModRM byte. -/
structure ModRM where
  mod : Nat
  reg : Nat
  rm : Nat
  deriving DecidableEq, Repr

def readModRM : List UInt8 → Option (ModRM × List UInt8)
  | [] => none
  | c :: bs => some (⟨c.toNat / 64, c.toNat / 8 % 8, c.toNat % 8⟩, bs)

/-- The displacement of a memory operand. -/
def readDisp (mod : Nat) (bs : List UInt8) : Option (Int × List UInt8) :=
  match mod with
  | 0 => some (0, bs)
  | 1 => readSigned 1 bs
  | 2 => readSigned 4 bs
  | _ => none

/-- A memory operand `[base + disp]`. A base with the low bits 100 needs a SIB byte, and one
    with the low bits 101 has no form without a displacement. -/
def readMem (rex : Rex) (m : ModRM) (bs : List UInt8) : Option ((Reg × Int) × List UInt8) :=
  if m.mod = 0 ∧ m.rm = 5 then none
  else if m.rm = 4 then
    match bs with
    | sib :: bs =>
      if sib.toNat = 0x24 ∧ rex.x = false then
        (readDisp m.mod bs).map fun (d, bs) => ((regOf rex.b 4, d), bs)
      else none
    | [] => none
  else (readDisp m.mod bs).map fun (d, bs) => ((regOf rex.b m.rm, d), bs)

/-- The operands of `lea dst, [base + index*8]`, a displacement of 0 included. -/
def readLea (rex : Rex) (bs : List UInt8) : Option (Instr × List UInt8) :=
  match bs with
  | modrm :: sib :: bs =>
    let dst := regOf rex.r (modrm.toNat / 8 % 8)
    let lea := Instr.lea8 dst (regOf rex.b (sib.toNat % 8)) (regOf rex.x (sib.toNat / 8 % 8))
    if modrm.toNat % 8 ≠ 4 ∨ sib.toNat / 64 ≠ 3 ∨ (sib.toNat / 8 % 8 = 4 ∧ rex.x = false) then none
    else match modrm.toNat / 64, bs with
      | 0, bs => if sib.toNat % 8 = 5 then none else some (lea, bs)
      | 1, d :: bs => if d = 0 then some (lea, bs) else none
      | _, _ => none
  | _ => none

/-- The condition of a condition code. -/
def condOf : Nat → Option Cond
  | 0x4 => some .e
  | 0x5 => some .ne
  | 0xC => some .l
  | 0xD => some .ge
  | 0xE => some .le
  | 0xF => some .g
  | _ => none

/-- The operation of the immediate group. -/
def aluOf : Nat → Option Alu
  | 0 => some .add
  | 5 => some .sub
  | 7 => some .cmp
  | _ => none

/-! ## Instructions -/

/-- An instruction with a ModRM byte: two registers, or a register and memory. -/
def readRM (rex : Rex) (bs : List UInt8) (regs : Reg → Reg → Option Instr)
    (mem : Reg → Reg → Int → Option Instr) : Option (Instr × List UInt8) := do
  let (m, bs) ← readModRM bs
  if m.mod = 3 then
    let i ← regs (regOf rex.r m.reg) (regOf rex.b m.rm)
    some (i, bs)
  else
    let ((base, disp), bs) ← readMem rex m bs
    let i ← mem (regOf rex.r m.reg) base disp
    some (i, bs)

/-- An instruction of the immediate group, with an immediate of `k` bytes. -/
def readAluImm (rex : Rex) (k : Nat) (bs : List UInt8) : Option (Instr × List UInt8) := do
  let (m, bs) ← readModRM bs
  if m.mod ≠ 3 then none
  else
    let op ← aluOf m.reg
    let (imm, bs) ← readSigned k bs
    some (.aluImm op (regOf rex.b m.rm) imm, bs)

/-- The opcodes behind `0F`. -/
def readTwo (rex : Rex) : List UInt8 → Option (Instr × List UInt8)
  | [] => none
  | c :: bs =>
    let op := c.toNat
    if op = 0xAF ∧ rex.w then
      readRM rex bs (fun reg rm => some (.alu .imul reg rm)) fun _ _ _ => none
    else if op = 0xB6 ∧ rex.w then
      readRM rex bs (fun reg rm => some (.movzx reg rm)) fun _ _ _ => none
    else if op / 16 = 9 then do
      let cc ← condOf (op % 16)
      -- without a prefix the numbers 4 to 7 are the second bytes of the first four registers
      readRM rex bs (fun _ rm => if rm.num < 4 ∨ rex.present then some (.setcc cc rm) else none)
        fun _ _ _ => none
    else if op / 16 = 8 then do
      let cc ← condOf (op % 16)
      let (rel, bs) ← readSigned 4 bs
      some (.jcc cc rel, bs)
    else if op = 0x1F ∧ bs.take 2 = [0x40, 0x00] then some (.nop, bs.drop 2)
    else none

/-- The opcodes of 64-bit operations. -/
def readWide (rex : Rex) (op : Nat) (bs : List UInt8) : Option (Instr × List UInt8) :=
  if op = 0x89 then
    readRM rex bs (fun reg rm => some (.mov rm reg)) fun reg base d => some (.store base d reg)
  else if op = 0x8B then readRM rex bs (fun _ _ => none) fun reg base d => some (.load reg base d)
  else if op = 0xC7 then do
    -- the register field is a part of the opcode
    let (i, bs) ← readRM rex bs (fun reg rm => if reg.num % 8 = 0 then some (.movImm rm 0) else none)
      fun reg base d => if reg.num % 8 = 0 then some (.storeImm base d 0) else none
    let (imm, bs) ← readSigned 4 bs
    match i with
    | .movImm rm _ => some (.movImm rm (BitVec.ofInt 64 imm), bs)
    | .storeImm base d _ => some (.storeImm base d imm, bs)
    | _ => none
  else if op = 0x01 then
    readRM rex bs (fun reg rm => some (.alu .add rm reg)) fun reg base d => some (.addMem base d reg)
  else if op = 0x29 then readRM rex bs (fun reg rm => some (.alu .sub rm reg)) fun _ _ _ => none
  else if op = 0x39 then readRM rex bs (fun reg rm => some (.alu .cmp rm reg)) fun _ _ _ => none
  else if op = 0x85 then readRM rex bs (fun reg rm => some (.test rm reg)) fun _ _ _ => none
  else if op = 0x8D then readLea rex bs
  else if op = 0x69 then do
    let (i, bs) ← readRM rex bs (fun reg rm => if reg = rm then some (.mov reg rm) else none)
      fun _ _ _ => none
    let (imm, bs) ← readSigned 4 bs
    match i with
    | .mov reg _ => some (.aluImm .imul reg imm, bs)
    | _ => none
  else if op = 0xC1 then do
    let (m, bs) ← readModRM bs
    if m.mod = 3 ∧ m.reg = 4 then
      let (n, bs) ← readLe 1 bs
      some (.shl (regOf rex.b m.rm) n, bs)
    else none
  else if op = 0x83 then readAluImm rex 1 bs
  else if op = 0x81 then readAluImm rex 4 bs
  else if op / 8 = 23 then do
    let (n, bs) ← readLe 8 bs
    some (.movImm (regOf rex.b op) (BitVec.ofNat 64 n), bs)
  else if op = 0xA1 then do
    let (n, bs) ← readLe 8 bs
    some (.loadAbs (BitVec.ofNat 64 n), bs)
  else if op = 0xA3 then do
    let (n, bs) ← readLe 8 bs
    some (.storeAbs (BitVec.ofNat 64 n), bs)
  else none

/-- The other opcodes. -/
def readNarrow (rex : Rex) (op : Nat) (bs : List UInt8) : Option (Instr × List UInt8) :=
  if op = 0x31 then readRM rex bs (fun reg rm => some (.xor32 rm reg)) fun _ _ _ => none
  else if op / 8 = 23 then do
    let (n, bs) ← readLe 4 bs
    some (.movImm (regOf rex.b op) (BitVec.ofNat 64 n), bs)
  else if op / 8 = 10 then some (.push (regOf rex.b op), bs)
  else if op / 8 = 11 then some (.pop (regOf rex.b op), bs)
  else if op = 0xFF then do
    let (m, bs) ← readModRM bs
    if m.mod = 3 ∧ m.reg = 2 then some (.call (regOf rex.b m.rm), bs) else none
  else if op = 0xE9 then do
    let (rel, bs) ← readSigned 4 bs
    some (.jmp rel, bs)
  else if op = 0xC3 then some (.ret, bs)
  else if op = 0xC9 then some (.leave, bs)
  else none

/-- One instruction, and the bytes behind it. -/
def decode (bs : List UInt8) : Option (Instr × List UInt8) :=
  match readRex bs with
  | (_, []) => none
  | (rex, c :: bs) =>
    if c.toNat = 0x0F then readTwo rex bs
    else if rex.w then readWide rex c.toNat bs
    else readNarrow rex c.toNat bs

/-! ## Code -/

/-- `n` instructions, and the bytes behind them. -/
def decodeMany : Nat → List UInt8 → Option (List Instr × List UInt8)
  | 0, bs => some ([], bs)
  | n + 1, bs => do
    let (i, bs) ← decode bs
    let (code, bs) ← decodeMany n bs
    some (i :: code, bs)

theorem decodeMany_succ {n : Nat} {bs rest : List UInt8} {i : Instr}
    (h : decode bs = some (i, rest)) :
    decodeMany (n + 1) bs = (decodeMany n rest).map fun r => (i :: r.1, r.2) := by
  rw [decodeMany, h]
  change (decodeMany n rest).bind (fun r => some (i :: r.1, r.2)) = _
  rw [Option.map_eq_bind]
  rfl

theorem decodeMany_add {n m : Nat} {bs mid : List UInt8} {code : List Instr}
    (h : decodeMany n bs = some (code, mid)) :
    decodeMany (n + m) bs = (decodeMany m mid).map fun r => (code ++ r.1, r.2) := by
  induction n generalizing bs code with
  | zero =>
    cases h
    rw [Nat.zero_add]
    cases decodeMany m mid <;> rfl
  | succ n ih =>
    cases hd : decode bs with
    | none =>
      rw [decodeMany, hd] at h
      cases h
    | some r =>
      obtain ⟨i, rest⟩ := r
      rw [decodeMany_succ hd, Option.map_eq_some_iff] at h
      obtain ⟨⟨code', mid'⟩, hn, he⟩ := h
      obtain ⟨rfl, rfl⟩ := Prod.mk.inj he
      rw [Nat.add_right_comm, decodeMany_succ hd, ih hn, Option.map_map]
      rfl

/-- In front of any other bytes, the bytes are read as the instructions. -/
def Code (bs : List UInt8) (code : List Instr) : Prop :=
  ∀ rest, decodeMany code.length (bs ++ rest) = some (code, rest)

theorem Code.nil : Code [] [] := fun _ => rfl

theorem Code.append {bs bs' : List UInt8} {code code' : List Instr} (h : Code bs code)
    (h' : Code bs' code') : Code (bs ++ bs') (code ++ code') := by
  intro rest
  rw [List.append_assoc, List.length_append, decodeMany_add (h _), h' rest]
  rfl

theorem Code.single {bs : List UInt8} {i : Instr}
    (h : ∀ rest, decode (bs ++ rest) = some (i, rest)) : Code bs [i] := by
  intro rest
  rw [List.length_singleton, decodeMany_succ (h rest)]
  rfl

end Lib.X64
