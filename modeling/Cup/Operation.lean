/-
  What the instructions of the generator (`src/codegen/x64codegen.c`) do to the register they
  write. The instruction of an operator computes its value: `gen_alu_imm` and `gen_alu_rr`, with a
  shift for a factor that is a power of two, and the boolean that is made of a comparison.
-/
import Cup.Meaning
import Cup.Generated

namespace Cup

open Lib (Stop Run Res)
open Lib.X64

/-! ## Instructions -/

section Instructions

variable {σ : Type} {ext : Reg → Machine → σ → Option (Machine × σ)}

theorem setsTo_movRr (dst src : X64Reg) :
    SetsTo ext (emitMovRr dst src) [dst] dst fun m => m.regs src := by
  by_cases hne : dst = src
  · rw [emitMovRr, if_neg (not_not.mpr hne), hne]
    exact setsTo_nil fun _ => rfl
  · exact setsTo_set (code_movRr hne) fun m => ⟨m.flags, rfl⟩

theorem setsTo_movImm64 (r : X64Reg) (n : Nat) :
    SetsTo ext (emitMovImm64 r n) [r] r fun _ => BitVec.ofNat 64 n :=
  setsTo_set (code_movImm64 r n) fun m => ⟨m.flags, rfl⟩

theorem setsTo_movConst (r : X64Reg) {n : Nat} (hn : n < 2 ^ 64) :
    SetsTo ext (emitMovConst r n) [r] r fun _ => BitVec.ofNat 64 n :=
  setsTo_set (code_movConst r hn) fun m => ⟨m.flags, rfl⟩

theorem setsTo_load (dst base : X64Reg) :
    SetsTo ext (emitLoad dst base 0) [dst] dst fun m => m.mem.load (m.regs base) := by
  refine setsTo_set (code_load int32_zero) fun m => ⟨m.flags, ?_⟩
  rw [Instr.step, Machine.addr_zero]
  rfl

theorem setsTo_loadRaxAbs (a : Nat) :
    SetsTo ext (emitLoadRaxAbs a) [.rax] .rax fun m => m.mem.load (BitVec.ofNat 64 a) :=
  setsTo_set (code_loadRaxAbs a) fun m => ⟨m.flags, rfl⟩

theorem setsTo_leaIdx8 (dst base : X64Reg) {idx : X64Reg} (h : idx ≠ .rsp) :
    SetsTo ext (emitLeaIdx8 dst base idx) [dst] dst fun m => m.regs base + m.regs idx * 8 :=
  setsTo_set (code_leaIdx8 h) fun m => ⟨m.flags, rfl⟩

theorem setsTo_xorSelf (r : X64Reg) : SetsTo ext (emitXor32Rr r r) [r] r fun _ => 0 := by
  refine setsTo_set (code_xor32Rr r r) fun m => ⟨none, ?_⟩
  have hzero : ((m.regs r ^^^ m.regs r).setWidth 32).setWidth 64 = (0 : Word) := by
    rw [BitVec.xor_self]
    rfl
  rw [Instr.step, hzero]

theorem setsTo_aluImm {k : Nat} {op : Alu} {r : X64Reg} {n : Nat} {f : Word → Word → Word}
    (hop : aluOf k = some op) (hn : n ≤ int32Max)
    (hf : ∀ (m : Machine) b, m.alu op r b = { m.set r (f (m.regs r) b) with flags := none }) :
    SetsTo ext (emitAluImm k r n) [r] r fun m => f (m.regs r) (BitVec.ofNat 64 n) := by
  refine setsTo_set (code_aluImm (aluOf_lt hop) hop (int32_of_le hn)) fun m => ⟨none, ?_⟩
  rw [Instr.step, BitVec.ofInt_natCast, hf]

/-- A comparison that is made a boolean. -/
theorem setsTo_compare {test : Bytes} {i : Instr} {a b : Machine → Word} (cc : Cond) (r : X64Reg)
    (hc : Code test [i]) (hi : ∀ m, i.step m = some { m with flags := some (.ofSub (a m) (b m)) }) :
    SetsTo ext (test ++ emitSetccZx cc r) [r] r
      fun m => if cc.holds (.ofSub (a m) (b m)) then 1 else 0 := by
  obtain ⟨set, zx, hsplit, hset, hzx⟩ := setccZx_split cc r
  have htest := Instr.distance_of_step (hi ⟨fun _ => 0, fun _ => 0, none⟩)
  have hstraight : Straight (emitSetccZx cc r) :=
    hsplit ▸ (Straight.of_code hset rfl).append (.of_code hzx rfl)
  refine ⟨(Straight.of_code hc htest).append hstraight, fun m x => ?_⟩
  have hboolean : Through ext (emitSetccZx cc r) { m with flags := some (.ofSub (a m) (b m)) } x _ x :=
    hsplit ▸ (Through.of_step hset rfl).append (Through.of_step hzx rfl)
  refine ⟨_, (Through.of_step hc (hi m)).append hboolean, ?_, rfl, fun q hq => ?_⟩
  · rw [Machine.set_regs_self, Machine.set_regs_self]
    exact boolean_of_byte _ _
  · have hne : q ≠ r := fun he => hq (he ▸ List.mem_cons_self)
    rw [Machine.set_regs_of_ne hne, Machine.set_regs_of_ne hne]

end Instructions

/-! ## Operators -/

theorem holds_less (a b : Word) : Cond.l.holds (.ofSub a b) = a.slt b := by
  have ha := a.isLt
  have hb := b.isLt
  have hsub := BitVec.toNat_sub a b
  rw [Bool.eq_iff_iff]
  simp only [Cond.holds, Flags.ofSub, BitVec.msb_eq_decide, BitVec.slt, BitVec.toInt, bne_iff_ne,
    decide_eq_true_eq, ne_eq, hsub]
  generalize a.toNat = p at *
  generalize b.toNat = q at *
  -- the signs of the operands and of the difference
  by_cases hp : 2 ^ (64 - 1) ≤ p <;> by_cases hq : 2 ^ (64 - 1) ≤ q <;> by_cases hqp : q ≤ p <;>
    simp only [hp, hq, decide_true, decide_false] <;> grind

theorem holds_lessEq (a b : Word) : Cond.le.holds (.ofSub a b) = a.sle b := by
  have hless : Cond.le.holds (.ofSub a b) = ((a == b) || Cond.l.holds (.ofSub a b)) := rfl
  rw [hless, holds_less, BitVec.sle_eq_slt_or_eq, Bool.or_comm]

/-- A comparison is the boolean of its condition. -/
theorem compare_apply {op : BinOp} (h : isCompare op.token = true) (a b : Word) :
    (if (compareCc op.token).holds (.ofSub a b) then (1 : Word) else 0) = op.apply a b := by
  cases op with
  | less => rw [BinOp.apply, BinOp.token, compareCc, holds_less]
  | lessEq => rw [BinOp.apply, BinOp.token, compareCc, holds_lessEq]
  | equal =>
    change (if (a == b) = true then (1 : Word) else 0) = if a = b then 1 else 0
    simp only [beq_iff_eq]
  | _ => cases h

/-- The instruction of an operator on two registers. -/
def opBytes (op : BinOp) (dst src : X64Reg) : Bytes :=
  match op with
  | .add => emitAddRr dst src
  | .sub => emitSubRr dst src
  | .mul => emitImulRr dst src
  | _ => emitCmpRr dst src

/-- The instruction of an operator on a register and a number. -/
def opImmBytes (op : BinOp) (dst : X64Reg) (imm : Nat) : Bytes :=
  match op with
  | .add => if imm ≠ 0 then emitAluImm 0 dst imm else []
  | .sub => if imm ≠ 0 then emitAluImm 5 dst imm else []
  | .mul =>
    if imm = 1 then []
    else if 0 < imm ∧ imm &&& (imm - 1) = 0 then emitShlImm dst (shiftOf imm 31 0)
    else emitImulImm dst imm
  | _ => emitAluImm 7 dst imm

/-- What follows it: the boolean of a comparison, or the move to the target. -/
def resultBytes (op : BinOp) (treg res : X64Reg) : Bytes :=
  if isCompare op.token then emitSetccZx (compareCc op.token) treg else emitMovRr treg res

theorem emit_nil : emit [] = pure () := by
  funext s
  rw [emit, Run.modify_apply, List.append_nil]
  rfl

theorem operation_rr (op : BinOp) (dst src : X64Reg) :
    (if isCompare op.token then emit (emitCmpRr dst src) else genAluRr op.token dst src) =
      emit (opBytes op dst src) := by
  cases op <;> rfl

theorem operation_imm (op : BinOp) (dst : X64Reg) (imm : Nat) :
    (if isCompare op.token then emit (emitAluImm 7 dst imm) else genAluImm op.token dst imm) =
      emit (opImmBytes op dst imm) := by
  cases op with
  | add =>
    change (if imm ≠ 0 then _ else _) = emit (if imm ≠ 0 then _ else _)
    split
    · rfl
    · exact emit_nil.symm
  | sub =>
    change (if imm ≠ 0 then _ else _) = emit (if imm ≠ 0 then _ else _)
    split
    · rfl
    · exact emit_nil.symm
  | mul =>
    change (if imm = 1 then _ else _) = emit (if imm = 1 then _ else _)
    split
    · exact emit_nil.symm
    · split <;> rfl
  | _ => rfl

/-- The exponent of a power of two. -/
theorem shiftOf_pow {k n sh : Nat} (h : sh ≤ k) (h' : k ≤ sh + n) : shiftOf (2 ^ k) n sh = k := by
  induction n generalizing sh with
  | zero => exact Nat.le_antisymm h h'
  | succ n ih =>
    unfold shiftOf
    split
    · have hne : sh ≠ k := by
        rintro rfl
        exact absurd rfl ‹2 ^ sh ≠ 2 ^ sh›
      exact ih (by omega) (by omega)
    · exact Nat.pow_right_injective (Nat.le_refl 2) (not_not.mp ‹_›)

theorem shl_eq_mul (a : Word) {k : Nat} (hk : k < 64) :
    a <<< (k % 64) = a * BitVec.ofNat 64 (2 ^ k) := by
  apply BitVec.eq_of_toNat_eq
  rw [Nat.mod_eq_of_lt hk, BitVec.toNat_shiftLeft, Nat.shiftLeft_eq, BitVec.toNat_mul,
    BitVec.toNat_ofNat, Nat.mul_mod_mod]

section Operators

variable {σ : Type} {ext : Reg → Machine → σ → Option (Machine × σ)}

/-- An operator on two registers. -/
theorem setsTo_op (op : BinOp) (treg a b : X64Reg) :
    SetsTo ext (opBytes op a b ++ resultBytes op treg a) [a, treg] treg
      fun m => op.apply (m.regs a) (m.regs b) := by
  have harith : ∀ {bytes : Bytes} {i : Instr} {f : Word → Word → Word}, Code bytes [i] →
      (∀ m, i.step m = some { m.set a (f (m.regs a) (m.regs b)) with flags := none }) →
      SetsTo ext (bytes ++ emitMovRr treg a) [a, treg] treg fun m => f (m.regs a) (m.regs b) :=
    fun hc hi => (setsTo_set hc fun m => ⟨none, hi m⟩).append (setsTo_movRr treg a)
  have hcompare : isCompare op.token = true → SetsTo ext
      (emitCmpRr a b ++ emitSetccZx (compareCc op.token) treg) [a, treg] treg
      fun m => op.apply (m.regs a) (m.regs b) := by
    intro h
    have hset : SetsTo ext (emitCmpRr a b ++ emitSetccZx (compareCc op.token) treg) [treg] treg
        fun m => if (compareCc op.token).holds (.ofSub (m.regs a) (m.regs b)) then 1 else 0 :=
      setsTo_compare _ treg (code_cmpRr a b) fun _ => rfl
    refine ⟨hset.straight, fun m x => ?_⟩
    obtain ⟨m', hrun, hvalue, hmem, hothers⟩ := hset.sets m x
    exact ⟨m', hrun, hvalue.trans (compare_apply h _ _), hmem, fun q hq => hothers q fun hmem =>
      hq (List.mem_cons_of_mem _ hmem)⟩
  cases op with
  | add => exact harith (code_addRr a b) fun _ => rfl
  | sub => exact harith (code_subRr a b) fun _ => rfl
  | mul => exact harith (code_imulRr a b) fun _ => rfl
  | less => exact hcompare rfl
  | lessEq => exact hcompare rfl
  | equal => exact hcompare rfl

/-- An operator on a register and a number. -/
theorem setsTo_opImm (op : BinOp) (treg : X64Reg) {imm : Nat} (hi : imm ≤ int32Max) :
    SetsTo ext (opImmBytes op treg imm ++ resultBytes op treg treg) [treg] treg
      fun m => op.apply (m.regs treg) (BitVec.ofNat 64 imm) := by
  have hmove : emitMovRr treg treg = [] := if_neg fun h => h rfl
  have hcompare : isCompare op.token = true → SetsTo ext
      (emitAluImm 7 treg imm ++ emitSetccZx (compareCc op.token) treg) [treg] treg
      fun m => op.apply (m.regs treg) (BitVec.ofNat 64 imm) := by
    intro h
    refine (setsTo_compare (a := fun m => m.regs treg) (b := fun _ => BitVec.ofNat 64 imm) _ treg
      (code_aluImm (by decide) rfl (int32_of_le hi)) fun m => ?_).congr fun m => compare_apply h _ _
    rw [Instr.step, BitVec.ofInt_natCast, Machine.alu]
  cases op with
  | add =>
    change SetsTo ext ((if imm ≠ 0 then _ else _) ++ emitMovRr treg treg) _ _ _
    rw [hmove, List.append_nil]
    split
    · exact setsTo_aluImm rfl hi fun _ _ => rfl
    · obtain rfl : imm = 0 := not_not.mp ‹_›
      exact setsTo_nil fun m => (BitVec.add_zero _).symm
  | sub =>
    change SetsTo ext ((if imm ≠ 0 then _ else _) ++ emitMovRr treg treg) _ _ _
    rw [hmove, List.append_nil]
    split
    · exact setsTo_aluImm rfl hi fun _ _ => rfl
    · obtain rfl : imm = 0 := not_not.mp ‹_›
      exact setsTo_nil fun m => (BitVec.sub_zero _).symm
  | mul =>
    change SetsTo ext ((if imm = 1 then _ else if _ then _ else _) ++ emitMovRr treg treg) _ _ _
    rw [hmove, List.append_nil]
    split
    · subst imm
      exact setsTo_nil fun m => (BitVec.mul_one _).symm
    · split
      · rename_i hpow
        obtain ⟨k, rfl⟩ := (Nat.and_sub_one_eq_zero_iff_isPowerOfTwo (by omega)).mp hpow.2
        have hk : k < 31 := (Nat.pow_lt_pow_iff_right (by decide)).mp
          (Nat.lt_of_le_of_lt hi (by decide : int32Max < 2 ^ 31))
        rw [shiftOf_pow (Nat.zero_le k) (by omega)]
        refine setsTo_set (code_shlImm treg (by omega)) fun m => ⟨none, ?_⟩
        rw [Instr.step, shl_eq_mul _ (by omega)]
        rfl
      · refine setsTo_set (code_imulImm (int32_of_le hi)) fun m => ⟨none, ?_⟩
        rw [Instr.step, BitVec.ofInt_natCast]
        rfl
  | less => exact hcompare rfl
  | lessEq => exact hcompare rfl
  | equal => exact hcompare rfl

end Operators

end Cup
