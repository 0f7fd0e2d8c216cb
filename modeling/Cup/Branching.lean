/-
  Conditions (`gen_jump_if_false` and `codegen_expr`, `src/codegen/x64codegen.c`).

  `gen_jump_if_false` branches on the flags of a comparison, where `codegen_expr` makes a boolean
  of them. The two runs of the generator are the same up to the last instructions, and the code
  in front of these is too. From whatever state that code ends in, the jump is taken if and only
  if the value is 0.
-/
import Cup.Lib.X64Run
import Cup.Encoding
import Cup.Assignment

namespace Cup

open Lib (Stop Run)
open Lib.X64

/-! ## Flags and booleans -/

theorem holds_negCond (cc : Cond) (f : Flags) : (negCond cc).holds f = !cc.holds f := by
  obtain ⟨zf, sf, of⟩ := f
  cases cc <;> cases zf <;> cases sf <;> cases of <;> rfl

/-- The instruction sets the flags, and nothing else changes. -/
def SetsFlags (i : Instr) : Prop :=
  ∀ m : Machine, ∃ f, i.step m = some { m with flags := some f }

theorem setsFlags_cmp (dst src : Reg) : SetsFlags (.alu .cmp dst src) := fun _ => ⟨_, rfl⟩

theorem setsFlags_cmpImm (dst : Reg) (imm : Int) : SetsFlags (.aluImm .cmp dst imm) :=
  fun _ => ⟨_, rfl⟩

/-- `setcc` writes the low byte, and `movzx` clears the others. -/
theorem boolean_of_byte (v : Word) (b : Bool) :
    ((v >>> 8 <<< 8 ||| if b then 1 else 0).setWidth 8).setWidth 64 = if b then 1 else 0 := by
  ext i hi
  cases b <;> simp

/-! ## The operands of a comparison -/

/-- The code ends in an instruction that sets the flags. -/
def EndsInTest (code : Bytes) : Prop :=
  ∃ operands test i, code = operands ++ test ∧ Code test [i] ∧ SetsFlags i

theorem EndsInTest.of_emit {code test : Bytes} {i : Instr} (hc : Code test [i])
    (hi : SetsFlags i) : EndsInTest (code ++ test) := ⟨code, test, i, rfl, hc, hi⟩

theorem isSmallImm_le {l : List Node} {imm : Nat} (h : isSmallImm l = some imm) :
    imm ≤ int32Max := by
  unfold isSmallImm at h
  split at h
  · split at h
    · obtain rfl := Option.some.inj h
      rename_i hle
      exact hle.2
    · cases h
  · cases h

section Operands

variable (rec : GenExpr) {t : CTType}

/-- The part of `gen_binary` in front of the use of the flags. -/
def compareOperands (t : CTType) : Gen Unit := do
  let _ ← single rec .rax (some .rax)
  let _ ← binaryRight rec t .rax

theorem sat_any {α : Type} (x : Gen α) (s : GenState) {Q : α → GenState → Prop}
    (h : ∀ a s', Q a s') : x.Sat s Q fun _ _ => True :=
  Run.sat_of_forall h fun _ _ => trivial

/-- Behind the operands of a comparison the last instruction is the `cmp`. -/
theorem binaryRight_test (ht : isCompare t = true) (s : GenState) :
    (binaryRight rec t .rax).Sat s (fun _ s' => EndsInTest s'.buf) fun _ _ => True := by
  simp only [binaryRight, ht, if_true]
  rw [Run.sat_bind, Run.sat_get]
  split
  · rename_i imm himm
    have hle : Int32 (imm : Int) := by
      have := isSmallImm_le himm
      unfold int32Max at this
      unfold Int32
      omega
    exact EndsInTest.of_emit (code_aluImm (by decide) rfl hle) (setsFlags_cmpImm _ _)
  · split
    · rw [Run.sat_bind]
      refine sat_any _ _ fun r s₁ => ?_
      rw [Run.sat_bind]
      refine sat_any _ _ fun _ s₂ => ?_
      exact EndsInTest.of_emit (code_cmpRr _ _) (setsFlags_cmp _ _)
    · rw [Run.sat_bind]
      refine sat_any _ _ fun l s₁ => ?_
      rw [Run.sat_bind, emit, Run.sat_modify, Run.sat_bind]
      refine sat_any _ _ fun _ s₂ => ?_
      exact EndsInTest.of_emit (code_cmpRr _ _) (setsFlags_cmp _ _)

theorem compareOperands_test (ht : isCompare t = true) {s s' : GenState}
    (h : compareOperands rec t s = .ok () s') : EndsInTest s'.buf := by
  refine (Run.sat_iff_ok (Q := fun _ s' => EndsInTest s'.buf)).mp ?_ () s' h
  rw [compareOperands, Run.sat_bind]
  refine sat_any _ _ fun _ s₁ => ?_
  rw [Run.sat_bind]
  exact Run.sat_mono (binaryRight_test rec ht s₁) (fun _ _ hend => hend) fun _ _ h => h

/-- With `flags_only` a comparison ends behind its operands. -/
theorem genBinary_flags (ht : isCompare t = true) :
    genBinary rec t .rax true = compareOperands rec t >>= fun _ => pure (compareCc t) := by
  funext s
  simp only [genBinary, compareOperands, ht, if_true, Run.bind_assoc]
  rfl

/-- Without it the boolean is made of the flags. -/
theorem genBinary_value (ht : isCompare t = true) :
    genBinary rec t .rax false = compareOperands rec t >>= fun _ =>
      emit (emitSetccZx (compareCc t) .rax) >>= fun _ => pure (compareCc t) := by
  funext s
  simp only [genBinary, compareOperands, ht, if_true, Run.bind_assoc]
  rfl

end Operands

/-! ## The two forms of a condition -/

/-- `s₁` is behind the code that jumps by the offset at `patch`, `s₂` behind the code that
    leaves the value of the same condition in `rax`. -/
structure SameCondition (patch : Nat) (s₁ s₂ : GenState) : Prop where
  /-- The same nodes are taken, and nothing but the code differs. -/
  rest : s₁ = { s₂ with buf := s₁.buf }
  /-- The jump is the last instruction. -/
  patched : patch + 4 = s₁.buf.length
  /-- The code in front of the last instructions is the same. From where it ends, the jump is
      taken if and only if the value is 0, and the memory is the same. -/
  agrees : ∃ (operands test value : Bytes) (i : Instr) (is : List Instr) (cc : Cond),
    s₁.buf = operands ++ test ++ (jccOpcode cc ++ emiti32 0) ∧ s₂.buf = operands ++ value ∧
    Code test [i] ∧ Code value is ∧ is.length ≤ 3 ∧
    ∀ (σ : Type) (ext : Reg → Machine → σ → Option (Machine × σ)) (start : Config σ)
      (m : Machine) (x : σ), Runs ext operands start ⟨operands.length, m, x⟩ →
      ∃ m₁ m₂ f, Runs ext s₁.buf start ⟨patch - 2, m₁, x⟩ ∧
        Fetch s₁.buf (patch - 2) (.jcc cc 0) s₁.buf.length ∧ m₁.flags = some f ∧
        Runs ext s₂.buf start ⟨s₂.buf.length, m₂, x⟩ ∧
        (cc.holds f = true ↔ m₂.regs .rax = 0) ∧ m₁.mem = m₂.mem

theorem fetch_jcc (code : Bytes) (cc : Cond) :
    Fetch (code ++ (jccOpcode cc ++ emiti32 0)) code.length (.jcc cc 0)
      (code ++ (jccOpcode cc ++ emiti32 0)).length :=
  .of_code (code_jcc cc (by unfold Int32; omega))

theorem jcc_length (cc : Cond) : (jccOpcode cc ++ emiti32 0).length = 6 := by
  cases cc <;> rfl

/-- The offset to patch is behind the two bytes of the opcode. -/
theorem emitJccRel32_eq (cc : Cond) (s : GenState) : emitJccRel32 cc s =
    .ok (s.buf.length + 2) { s with buf := s.buf ++ (jccOpcode cc ++ emiti32 0) } := by
  have hlen : (s.buf ++ jccOpcode cc).length = s.buf.length + 2 := by
    rw [List.length_append]
    cases cc <;> rfl
  rw [← hlen, ← List.append_assoc]
  rfl

/-- A comparison: its flags are used by the jump, or made a boolean. -/
theorem sameCondition_compare {s : GenState} (cc : Cond) (h : EndsInTest s.buf) :
    SameCondition (s.buf.length + 2)
      { s with buf := s.buf ++ (jccOpcode (negCond cc) ++ emiti32 0) }
      { s with buf := s.buf ++ emitSetccZx cc .rax } := by
  obtain ⟨operands, test, i, hbuf, htest, hi⟩ := h
  obtain ⟨set, zx, hsplit, hset, hzx⟩ := setccZx_split cc .rax
  refine ⟨rfl, ?_, operands, test, test ++ emitSetccZx cc .rax, i, _, negCond cc, ?_, ?_, htest,
    htest.append (code_setccZx cc .rax), by simp, ?_⟩
  · rw [List.length_append, jcc_length]
  · simp only [hbuf]
  · simp only [hbuf, List.append_assoc]
  · intro σ ext start m x hrun
    obtain ⟨f, hf⟩ := hi m
    -- the comparison is common to both
    have hcmp := hrun.step htest hf
    rw [← hbuf] at hcmp
    have hsetStep : (Instr.setcc cc .rax).step { m with flags := some f } =
        some (({ m with flags := some f } : Machine).set .rax
          ((m.regs .rax >>> 8 <<< 8) ||| if cc.holds f then 1 else 0)) := rfl
    have hrunZx := (hcmp.step hset hsetStep).step hzx rfl
    rw [List.append_assoc, ← hsplit] at hrunZx
    refine ⟨_, _, f, hcmp.append, fetch_jcc s.buf (negCond cc), rfl, hrunZx, ?_, rfl⟩
    rw [Machine.set_regs_self, Machine.set_regs_self, boolean_of_byte, holds_negCond]
    cases cc.holds f <;> simp

/-- Any other condition: its value is tested. -/
theorem sameCondition_value (s : GenState) :
    SameCondition ((s.buf ++ emitTestRr .rax .rax).length + 2)
      { s with buf := s.buf ++ emitTestRr .rax .rax ++ (jccOpcode .e ++ emiti32 0) } s := by
  refine ⟨rfl, ?_, s.buf, emitTestRr .rax .rax, [], _, [], .e, rfl, ?_, code_testRr .rax .rax,
    Code.nil, by simp, ?_⟩
  · have hjcc := jcc_length .e
    simp only [List.length_append] at hjcc ⊢
    omega
  · rw [List.append_nil]
  · intro σ ext start m x hrun
    have htest := hrun.step (code_testRr .rax .rax) rfl
    refine ⟨_, m, _, htest.append, fetch_jcc _ .e, rfl, hrun, ?_, rfl⟩
    change (m.regs .rax &&& m.regs .rax == 0) = true ↔ m.regs .rax = 0
    rw [BitVec.and_self, beq_iff_eq]

/-! ## Two runs of the generator -/

theorem peekToken_eq_ok {s s' : GenState} {t : CTType} (h : peekToken s = .ok t s') :
    ∃ loc rest, s.range = .tok loc :: rest := by
  simp only [peekToken, Run.get_bind] at h
  cases hs : s.range with
  | nil =>
    rw [hs] at h
    cases h
  | cons n rest =>
    cases n with
    | tok loc => exact ⟨loc, rest, rfl⟩
    | _ =>
      rw [hs] at h
      cases h

theorem peekToken_tok {s : GenState} {loc : Loc} {rest : List Node}
    (hs : s.range = .tok loc :: rest) : peekToken s = .ok loc.token s := by
  unfold peekToken
  rw [Run.get_bind, hs]
  rfl

/-- The generator starts with a token. -/
theorem codegenExpr_head {L : Layout} {n : Nat} {treg : X64Reg} {sreg : Option X64Reg}
    {s s' : GenState} {r : Nat × Option Nat} (h : codegenExpr L (n + 1) treg sreg s = .ok r s') :
    ∃ loc rest, s.range = .tok loc :: rest := by
  simp only [codegenExpr, Run.get_bind] at h
  obtain ⟨t, s₁, htok, -⟩ := Run.bind_eq_ok.mp h
  simp only [getNodeToken, getNode, Run.bind_assoc, Run.get_bind] at htok
  cases hs : s.range with
  | nil =>
    rw [hs] at htok
    cases htok
  | cons n rest =>
    cases n with
    | tok loc => exact ⟨loc, rest, rfl⟩
    | _ =>
      rw [hs] at htok
      cases htok

section Runs

variable {rec : GenExpr} {s s' : GenState} {loc : Loc} {rest : List Node}

/-- A comparison at the head of the range. -/
theorem genJumpIfFalse_compare (hs : s.range = .tok loc :: rest)
    (ht : isCompare loc.token = true) : genJumpIfFalse rec s =
      (compareOperands rec loc.token >>= fun _ => emitJccRel32 (negCond (compareCc loc.token)))
        { s with range := rest } := by
  have hskip : skipNodes 1 s = .ok () { s with range := rest } := by
    rw [skipNodes, Run.modify_apply, hs]
    rfl
  rw [genJumpIfFalse, Run.bind_of_ok (peekToken_tok hs), if_pos ht, Run.bind_of_ok hskip,
    genBinary_flags rec ht, Run.bind_assoc]
  rfl

/-- Any other condition. -/
theorem genJumpIfFalse_value (hs : s.range = .tok loc :: rest)
    (ht : isCompare loc.token = false) : genJumpIfFalse rec s =
      (single rec .rax (some .rax) >>= fun _ => emit (emitTestRr .rax .rax) >>= fun _ =>
        emitJccRel32 .e) s := by
  rw [genJumpIfFalse, Run.bind_of_ok (peekToken_tok hs), if_neg (by rw [ht]; decide)]

theorem codegenExpr_compare {L : Layout} {n : Nat} (hs : s.range = .tok loc :: rest)
    (ht : isCompare loc.token = true) : codegenExpr L (n + 1) .rax (some .rax) s =
      (compareOperands (codegenExpr L n) loc.token >>= fun _ =>
        emit (emitSetccZx (compareCc loc.token) .rax) >>= fun _ => pure (0, none))
        { s with range := rest } := by
  have hcases : loc.token = .tLess ∨ loc.token = .tLesseq ∨ loc.token = .tEqeq := by
    revert ht
    cases loc.token <;> decide
  have hvalue := genBinary_value (codegenExpr L n) ht
  rcases hcases with h | h | h <;> rw [h] at hvalue ⊢ <;>
    simp only [codegenExpr, Run.get_bind, Run.bind_of_ok (getNodeToken_ok hs), h, hvalue,
      Run.bind_assoc] <;> rfl

end Runs

/-- An expression of a single value has no further trees. -/
theorem single_eq_ok {rec : GenExpr} {treg : X64Reg} {sreg : Option X64Reg} {s s' : GenState}
    {var : Option Nat} : single rec treg sreg s = .ok var s' ↔ rec treg sreg s = .ok (0, var) s' := by
  constructor
  · intro h
    obtain ⟨⟨count, v⟩, s₁, hrec, h⟩ := Run.bind_eq_ok.mp h
    obtain ⟨_, s₂, hcount, h⟩ := Run.bind_eq_ok.mp h
    cases h
    unfold expectSingle at hcount
    split at hcount
    · cases hcount
    · rename_i h0
      obtain rfl : count = 0 := not_not.mp h0
      cases hcount
      exact hrec
  · intro h
    rw [single, Run.bind_of_ok h]
    rfl

section Condition

variable (L : Layout) (s : GenState)

/-- Where `gen_jump_if_false` returns, so does `codegen_expr` for the same condition. -/
theorem value_of_jump {n patch : Nat} {s₁ : GenState}
    (h : genJumpIfFalse (codegenExpr L n) s = .ok patch s₁) :
    ∃ k var s₂, codegenExpr L k .rax (some .rax) s = .ok (0, var) s₂ ∧
      SameCondition patch s₁ s₂ := by
  obtain ⟨_, _, hpeek, -⟩ := Run.bind_eq_ok.mp h
  obtain ⟨loc, rest, hs⟩ := peekToken_eq_ok hpeek
  cases ht : isCompare loc.token with
  | true =>
    rw [genJumpIfFalse_compare hs ht] at h
    obtain ⟨_, s', hops, h⟩ := Run.bind_eq_ok.mp h
    rw [emitJccRel32_eq] at h
    cases h
    refine ⟨n + 1, none, _, ?_, sameCondition_compare _ (compareOperands_test _ ht hops)⟩
    rw [codegenExpr_compare hs ht, Run.bind_of_ok hops]
    rfl
  | false =>
    rw [genJumpIfFalse_value hs ht] at h
    obtain ⟨var, s₂, hsingle, h⟩ := Run.bind_eq_ok.mp h
    rw [emit, Run.modify_bind, emitJccRel32_eq] at h
    cases h
    exact ⟨n, var, s₂, single_eq_ok.mp hsingle, sameCondition_value s₂⟩

/-- Where `codegen_expr` returns with a single value, so does `gen_jump_if_false`. -/
theorem jump_of_value {n : Nat} {var : Option Nat} {s₂ : GenState}
    (h : codegenExpr L n .rax (some .rax) s = .ok (0, var) s₂) :
    ∃ k patch s₁, genJumpIfFalse (codegenExpr L k) s = .ok patch s₁ ∧
      SameCondition patch s₁ s₂ := by
  obtain ⟨n, rfl⟩ : ∃ k, n = k + 1 := by
    cases n with
    | zero => cases h
    | succ n => exact ⟨n, rfl⟩
  obtain ⟨loc, rest, hs⟩ := codegenExpr_head h
  cases ht : isCompare loc.token with
  | true =>
    rw [codegenExpr_compare hs ht] at h
    obtain ⟨_, s', hops, h⟩ := Run.bind_eq_ok.mp h
    cases h
    refine ⟨n, _, _, ?_, sameCondition_compare _ (compareOperands_test _ ht hops)⟩
    rw [genJumpIfFalse_compare hs ht, Run.bind_of_ok hops, emitJccRel32_eq]
  | false =>
    refine ⟨n + 1, _, _, ?_, sameCondition_value s₂⟩
    rw [genJumpIfFalse_value hs ht, Run.bind_of_ok (single_eq_ok.mpr h), emit, Run.modify_bind,
      emitJccRel32_eq]

/-- **A condition branches as its value says.** -/
theorem jump_agrees_value :
    (∀ n patch s₁, genJumpIfFalse (codegenExpr L n) s = .ok patch s₁ →
      ∃ k var s₂, codegenExpr L k .rax (some .rax) s = .ok (0, var) s₂ ∧
        SameCondition patch s₁ s₂) ∧
    ∀ n var s₂, codegenExpr L n .rax (some .rax) s = .ok (0, var) s₂ →
      ∃ k patch s₁, genJumpIfFalse (codegenExpr L k) s = .ok patch s₁ ∧
        SameCondition patch s₁ s₂ :=
  ⟨fun _ _ _ => value_of_jump L s, fun _ _ _ => jump_of_value L s⟩

end Condition

/-- The nodes of `1 < 2`. -/
def oneLessTwo : GenState where
  cup := {}
  range := [.tok ⟨.tLess, 3, 1⟩, .tok ⟨.tNumber, 1, 1⟩, .value 1, .tok ⟨.tNumber, 5, 1⟩, .value 2]

theorem jump_agrees_value_oneLessTwo : ∃ s₁ k var s₂,
    genJumpIfFalse (codegenExpr ⟨4096, 8192⟩ 1) oneLessTwo = .ok 11 s₁ ∧
    codegenExpr ⟨4096, 8192⟩ k .rax (some .rax) oneLessTwo = .ok (0, var) s₂ ∧
    SameCondition 11 s₁ s₂ := by
  obtain ⟨k, var, s₂, hvalue, hsame⟩ :=
    (jump_agrees_value ⟨4096, 8192⟩ oneLessTwo).1 1 11 _ rfl
  exact ⟨_, k, var, s₂, rfl, hvalue, hsame⟩

end Cup
