/-
  A part of x86-64: registers, memory, and the effect of the instructions a simple compiler
  emits, all of 64 bits.

  `exec` runs code that does not jump. What a `call` does is a parameter: a function from the
  state in front of the call and a further state `σ` to the state behind it. Flags are recorded
  where an instruction defines those that the conditions read, and are unspecified elsewhere.
-/
import Mathlib.Algebra.Ring.Rat
import Mathlib.Tactic.Common

namespace Lib.X64

/-- A machine word. -/
abbrev Word := BitVec 64

/-! ## Registers -/

inductive Reg where
  | rax | rcx | rdx | rbx | rsp | rbp | rsi | rdi
  | r8 | r9 | r10 | r11 | r12 | r13 | r14 | r15
  deriving DecidableEq, Repr

namespace Reg

/-- The number of a register in instructions. -/
def num : Reg → Nat
  | rax => 0 | rcx => 1 | rdx => 2 | rbx => 3 | rsp => 4 | rbp => 5 | rsi => 6 | rdi => 7
  | r8 => 8 | r9 => 9 | r10 => 10 | r11 => 11 | r12 => 12 | r13 => 13 | r14 => 14 | r15 => 15

def all : List Reg :=
  [rax, rcx, rdx, rbx, rsp, rbp, rsi, rdi, r8, r9, r10, r11, r12, r13, r14, r15]

/-- The register of a number below 16. -/
def ofNum (n : Nat) : Reg := all.getD n rax

@[simp] theorem ofNum_num (r : Reg) : ofNum r.num = r := by
  cases r <;> rfl

theorem num_lt (r : Reg) : r.num < 16 := by
  cases r <;> decide

theorem num_inj {r s : Reg} (h : r.num = s.num) : r = s := by
  rw [← ofNum_num r, h, ofNum_num]

theorem mem_all (r : Reg) : r ∈ all := by
  cases r <;> decide

instance {p : Reg → Prop} [DecidablePred p] : Decidable (∀ r, p r) :=
  decidable_of_iff (∀ r ∈ all, p r) ⟨fun h r => h r r.mem_all, fun h r _ => h r⟩

/-- The registers that a function hands back as it found them. -/
def calleeSaved : Reg → Bool
  | rbx | rsp | rbp | r12 | r13 | r14 | r15 => true
  | _ => false

end Reg

/-! ## Bytes -/

/-- The `k` low bytes of a number, the lowest first. -/
def leBytes : Nat → Nat → List UInt8
  | 0, _ => []
  | k + 1, n => UInt8.ofNat n :: leBytes k (n / 256)

/-- The number that bytes stand for, the lowest first. -/
def ofLe : List UInt8 → Nat
  | [] => 0
  | b :: bs => b.toNat + 256 * ofLe bs

@[simp] theorem leBytes_length (k n : Nat) : (leBytes k n).length = k := by
  induction k generalizing n with
  | zero => rfl
  | succ k ih => simp [leBytes, ih]

theorem ofLe_leBytes (k n : Nat) : ofLe (leBytes k n) = n % 256 ^ k := by
  induction k generalizing n with
  | zero => simp [leBytes, ofLe, Nat.mod_one]
  | succ k ih =>
    have hb : (UInt8.ofNat n).toNat = n % 256 := by simp
    have hsplit : n % 256 ^ (k + 1) = n % 256 + 256 * (n / 256 % 256 ^ k) := by
      rw [Nat.pow_succ', Nat.mod_mul]
    rw [leBytes, ofLe, ih, hb, hsplit]

/-! ## Memory -/

/-- Memory of bytes; an address wraps around. -/
abbrev Mem := Word → UInt8

/-- The distance of `x` behind `a`. -/
def dist (a x : Word) : Nat := (x - a).toNat

namespace Mem

/-- The word at an address, its lowest byte first. -/
def load (m : Mem) (a : Word) : Word :=
  BitVec.ofNat 64 (ofLe ((List.range 8).map fun i => m (a + BitVec.ofNat 64 i)))

/-- A word is written to an address. -/
def store (m : Mem) (a v : Word) : Mem := fun x =>
  if dist a x < 8 then (leBytes 8 v.toNat).getD (dist a x) 0 else m x

theorem dist_add {a : Word} {i : Nat} (h : i < 2 ^ 64) : dist a (a + BitVec.ofNat 64 i) = i := by
  have hi : a + BitVec.ofNat 64 i - a = BitVec.ofNat 64 i := by
    rw [BitVec.add_comm, BitVec.add_sub_cancel]
  rw [dist, hi, BitVec.toNat_ofNat, Nat.mod_eq_of_lt h]

theorem store_of_far {m : Mem} {a v x : Word} (h : 8 ≤ dist a x) : m.store a v x = m x :=
  if_neg (by omega)

theorem load_store (m : Mem) (a v : Word) : (m.store a v).load a = v := by
  have hbytes : (List.range 8).map (fun i => m.store a v (a + BitVec.ofNat 64 i)) =
      leBytes 8 v.toNat := by
    refine List.ext_getElem (by simp) fun i hi hi' => ?_
    have hlt : i < 8 := by simpa using hi
    rw [List.getElem_map, List.getElem_range, store, dist_add (by omega), if_pos hlt]
    rw [List.getD_eq_getElem?_getD, List.getElem?_eq_getElem hi', Option.getD_some]
  rw [load, hbytes, ofLe_leBytes]
  apply BitVec.eq_of_toNat_eq
  have := v.isLt
  rw [BitVec.toNat_ofNat]
  omega

/-- A load depends on eight bytes. -/
theorem load_congr {m m' : Mem} {a : Word} (h : ∀ x, dist a x < 8 → m x = m' x) :
    m.load a = m'.load a := by
  have hbytes : (List.range 8).map (fun i => m (a + BitVec.ofNat 64 i)) =
      (List.range 8).map fun i => m' (a + BitVec.ofNat 64 i) := by
    refine List.map_congr_left fun i hi => h _ ?_
    have hlt := List.mem_range.mp hi
    rwa [dist_add (by omega)]
  rw [load, load, hbytes]

end Mem

/-! ## Machine states -/

/-- The flags that the conditions read. -/
structure Flags where
  zf : Bool
  sf : Bool
  of : Bool
  deriving DecidableEq, Repr

/-- The flags of `a - b`. -/
def Flags.ofSub (a b : Word) : Flags where
  zf := a == b
  sf := (a - b).msb
  of := (a.msb != b.msb) && ((a - b).msb != a.msb)

/-- The flags of `a & b`. -/
def Flags.ofAnd (a b : Word) : Flags where
  zf := a &&& b == 0
  sf := (a &&& b).msb
  of := false

/-- A condition of a conditional instruction. -/
inductive Cond where
  | e | ne | l | ge | le | g
  deriving DecidableEq, Repr

def Cond.holds : Cond → Flags → Bool
  | e, f => f.zf
  | ne, f => !f.zf
  | l, f => f.sf != f.of
  | ge, f => f.sf == f.of
  | le, f => f.zf || f.sf != f.of
  | g, f => !f.zf && f.sf == f.of

/-- A state; `flags` is `none` where the flags are unspecified. -/
structure Machine where
  regs : Reg → Word
  mem : Mem
  flags : Option Flags := none

/-- A register is written. -/
def Machine.set (m : Machine) (r : Reg) (v : Word) : Machine :=
  { m with regs := fun s => if s = r then v else m.regs s }

@[simp] theorem Machine.set_regs_self (m : Machine) (r : Reg) (v : Word) :
    (m.set r v).regs r = v := if_pos rfl

theorem Machine.set_regs_of_ne {m : Machine} {r s : Reg} {v : Word} (h : s ≠ r) :
    (m.set r v).regs s = m.regs s := if_neg h

@[simp] theorem Machine.set_mem (m : Machine) (r : Reg) (v : Word) : (m.set r v).mem = m.mem := rfl

/-! ## Instructions -/

/-- Operations on two registers or a register and an immediate. -/
inductive Alu where
  | add | sub | cmp | imul
  deriving DecidableEq, Repr

/-- The instructions, with their operands as the processor reads them: `disp`, `imm` and `rel`
    are sign-extended. `setcc` writes the low byte of a register, `movzx` reads it. -/
inductive Instr where
  | mov (dst src : Reg)
  | movImm (dst : Reg) (imm : Word)
  | load (dst base : Reg) (disp : Int)
  | store (base : Reg) (disp : Int) (src : Reg)
  | storeImm (base : Reg) (disp imm : Int)
  | addMem (base : Reg) (disp : Int) (src : Reg)
  | lea8 (dst base index : Reg)
  | loadAbs (addr : Word)
  | storeAbs (addr : Word)
  | alu (op : Alu) (dst src : Reg)
  | aluImm (op : Alu) (dst : Reg) (imm : Int)
  | test (a b : Reg)
  | xor32 (dst src : Reg)
  | shl (dst : Reg) (n : Nat)
  | setcc (cc : Cond) (dst : Reg)
  | movzx (dst src : Reg)
  | push (r : Reg)
  | pop (r : Reg)
  | call (r : Reg)
  | ret
  | leave
  | jmp (rel : Int)
  | jcc (cc : Cond) (rel : Int)
  | nop
  deriving DecidableEq, Repr

/-- An address of the form `[base + disp]`. -/
def Machine.addr (m : Machine) (base : Reg) (disp : Int) : Word :=
  m.regs base + BitVec.ofInt 64 disp

@[simp] theorem Machine.addr_zero (m : Machine) (base : Reg) : m.addr base 0 = m.regs base := by
  simp [addr]

/-- The effect of an operation on the destination `a` and the source `b`. -/
def Machine.alu (m : Machine) (op : Alu) (dst : Reg) (b : Word) : Machine :=
  let a := m.regs dst
  match op with
  | .add => { m.set dst (a + b) with flags := none }
  | .sub => { m.set dst (a - b) with flags := none }
  | .imul => { m.set dst (a * b) with flags := none }
  | .cmp => { m with flags := some (.ofSub a b) }

/-- One instruction that does not transfer control. -/
def Instr.step : Instr → Machine → Option Machine
  | mov dst src, m => some (m.set dst (m.regs src))
  | movImm dst imm, m => some (m.set dst imm)
  | load dst base disp, m => some (m.set dst (m.mem.load (m.addr base disp)))
  | store base disp src, m =>
    some { m with mem := m.mem.store (m.addr base disp) (m.regs src) }
  | storeImm base disp imm, m =>
    some { m with mem := m.mem.store (m.addr base disp) (BitVec.ofInt 64 imm) }
  | addMem base disp src, m =>
    let a := m.addr base disp
    some { m with mem := m.mem.store a (m.mem.load a + m.regs src), flags := none }
  | lea8 dst base index, m => some (m.set dst (m.regs base + m.regs index * 8))
  | loadAbs addr, m => some (m.set .rax (m.mem.load addr))
  | storeAbs addr, m => some { m with mem := m.mem.store addr (m.regs .rax) }
  | alu op dst src, m => some (m.alu op dst (m.regs src))
  | aluImm op dst imm, m => some (m.alu op dst (BitVec.ofInt 64 imm))
  | test a b, m => some { m with flags := some (.ofAnd (m.regs a) (m.regs b)) }
  | xor32 dst src, m =>
    some { m.set dst ((m.regs dst ^^^ m.regs src).setWidth 32 |>.setWidth 64) with flags := none }
  | shl dst n, m => some { m.set dst (m.regs dst <<< (n % 64)) with flags := none }
  | setcc cc dst, m => m.flags.map fun f =>
    m.set dst ((m.regs dst >>> 8 <<< 8) ||| if cc.holds f then 1 else 0)
  | movzx dst src, m => some (m.set dst ((m.regs src).setWidth 8 |>.setWidth 64))
  | push r, m =>
    let sp := m.regs .rsp - 8
    some { m.set .rsp sp with mem := m.mem.store sp (m.regs r) }
  | pop r, m =>
    let sp := m.regs .rsp
    some ((m.set .rsp (sp + 8)).set r (m.mem.load sp))
  | leave, m =>
    let sp := m.regs .rbp
    some ((m.set .rsp (sp + 8)).set .rbp (m.mem.load sp))
  | nop, m => some m
  | call _, _ | ret, _ | jmp _, _ | jcc _ _, _ => none

section Exec

variable {σ : Type} (ext : Reg → Machine → σ → Option (Machine × σ))

/-- One instruction, which may be a call. -/
def Instr.run : Instr → Machine → σ → Option (Machine × σ)
  | .call r, m, x => ext r m x
  | i, m, x => (i.step m).map (·, x)

/-- Code without jumps, from its first instruction to past the last. -/
def exec : List Instr → Machine → σ → Option (Machine × σ)
  | [], m, x => some (m, x)
  | i :: code, m, x => (i.run ext m x).bind fun y => exec code y.1 y.2

variable {ext}

@[simp] theorem exec_nil (m : Machine) (x : σ) : exec ext [] m x = some (m, x) := rfl

theorem exec_cons {i : Instr} {code : List Instr} {m m' : Machine} {x x' : σ}
    (h : i.run ext m x = some (m', x')) : exec ext (i :: code) m x = exec ext code m' x' := by
  rw [exec, h, Option.bind_some]

theorem run_of_step {i : Instr} {m m' : Machine} {x : σ} (h : i.step m = some m') :
    i.run ext m x = some (m', x) := by
  have hne : ∀ r, i ≠ .call r := by
    rintro r rfl
    cases h
  unfold Instr.run
  split
  · exact absurd rfl (hne _)
  · rw [h, Option.map_some]

theorem exec_append {code code' : List Instr} {m m' : Machine} {x x' : σ}
    (h : exec ext code m x = some (m', x')) :
    exec ext (code ++ code') m x = exec ext code' m' x' := by
  induction code generalizing m x with
  | nil =>
    obtain ⟨rfl, rfl⟩ := Prod.mk.inj (Option.some.inj h)
    rfl
  | cons i code ih =>
    rw [exec, Option.bind_eq_some_iff] at h
    obtain ⟨⟨m₁, x₁⟩, hi, h⟩ := h
    rw [List.cons_append, exec_cons hi]
    exact ih h

end Exec

end Lib.X64
