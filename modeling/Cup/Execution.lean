/-
  The code of statements (`gen_jump_if_false` and the cases `T_IF`, `T_WHILE` and `T_RETURN` of
  `codegen_expr`, `src/codegen/x64codegen.c`) does what `World.exec` does.

  A condition ends in flags, for a jump that is taken where its value is 0 (`Decides`). The
  distance is patched behind the body. From node streams that are read as statements (`ReadsBody`)
  the loop over the trees of a body emits their code (`ReadsBody.executes`).
-/
import Cup.Calling
import Cup.Statement

namespace Cup

open Lib (Stop Run Res)
open Lib.X64

/-! ## Conditions -/

section Conditions

variable {σ : Type} (W : World σ) (ext : Reg → Machine → σ → Option (Machine × σ))

/-- Nodes were taken, and code was emitted that ends in a test of what `f` gives, with a jump
    whose distance is at `patch`. -/
structure Decides (need : Nat) (f : Meaning σ Word) (rest : List Node) (patch : Nat)
    (s s' : GenState) : Prop where
  range : s'.range = rest
  busy : s'.fn.busy = s.fn.busy
  depth : Deeper 0 s s'
  code : ∃ c cc, Appended s s' (c ++ (jccOpcode cc ++ emiti32 0)) ∧ Straight c ∧
    patch = s.buf.length + c.length + 2 ∧ ∀ k, 8 * need ≤ k → k ≤ W.stack.size →
    Aligned W.stack k s.fn.depth →
      Does W.stack ext (Kept False .rax s s') k k k c (fun _ => True) f (Tested cc)

variable {W} {ext} {L : Layout} {c : CUPState} {s s₁ : GenState} {l rest : List Node} {e : Expr}
  {need : Nat} {f : Meaning σ Word} {n : Nat}

/-- The jump behind a test. -/
theorem emitJcc_decides {bytes : Bytes} {cc : Cond} (hem : Emits s s₁ bytes)
    (hrange : s₁.range = rest) (hbusy : s₁.fn.busy = s.fn.busy)
    (hdepth : Deeper 0 s s₁) (hcode : ∀ k, 8 * need ≤ k → k ≤ W.stack.size →
      Aligned W.stack k s.fn.depth →
        Does W.stack ext (Kept False .rax s s₁) k k k bytes (fun _ => True) f (Tested cc)) :
    (emitJccRel32 cc).Sat s₁ (fun patch s' => Decides W ext need f rest patch s s') GivesUp := by
  rw [Run.sat_of_ok (emitJccRel32_eq cc s₁)]
  have hjump : Appended s₁ { s₁ with buf := s₁.buf ++ (jccOpcode cc ++ emiti32 0) }
      (jccOpcode cc ++ emiti32 0) := .of_eq rfl rfl rfl rfl rfl
  refine ⟨hrange, hbusy, ⟨hdepth.depth, hdepth.bound⟩, bytes, cc, hem.toAppended.trans hjump,
    hem.straight, ?_, fun k hk hsize hal => ?_⟩
  · rw [hem.buf, List.length_append]
  · exact (hcode k hk hsize hal).of_keep fun _ hr => hr.left hjump

/-- The flags of a comparison, and the condition for "false". -/
theorem tested_compare {op : BinOp} (h : isCompare op.token = true) {a b : Word} {m : Machine}
    (hf : m.flags = some (.ofSub a b)) : Tested (negCond (compareCc op.token)) (op.apply a b) m := by
  refine ⟨_, hf, ?_⟩
  rw [holds_negCond, ← compare_apply h]
  cases (compareCc op.token).holds (.ofSub a b) with
  | false => exact iff_of_true rfl rfl
  | true => exact iff_of_false Bool.false_ne_true (by decide)

theorem opBytes_compare {op : BinOp} (h : isCompare op.token = true) (a b : X64Reg) :
    opBytes op a b = emitCmpRr a b := by
  cases op with
  | less => rfl
  | lessEq => rfl
  | equal => rfl
  | _ => cases h

theorem opImmBytes_compare {op : BinOp} (h : isCompare op.token = true) (a : X64Reg) (imm : Nat) :
    opImmBytes op a imm = emitAluImm 7 a imm := by
  cases op with
  | less => rfl
  | lessEq => rfl
  | equal => rfl
  | _ => cases h

/-- A comparison: the jump reads its flags. -/
theorem compareOperands_decides {op : BinOp} {l' : List Node} {e' : Expr} {rec : GenExpr}
    (h : isCompare op.token = true) (hl : Subtree W ext L c rec l e)
    (hr : Subtree W ext L c rec l' e') (hc : SameTables c s.cup)
    (hs : s.range = l ++ (l' ++ rest)) :
    (compareOperands rec op.token >>= fun _ => emitJccRel32 (negCond (compareCc op.token))).Sat s
      (fun patch s' => Decides W ext (max (W.words e) (W.words e'))
        (W.eval true e >>= fun v => W.eval true e' >>= fun w => pure (op.apply v w))
        rest patch s s') GivesUp := by
  have hrax : Reg.calleeSaved .rax = false := rfl
  rw [compareOperands, Run.bind_assoc]
  refine sat_then (hl.single hrax hc hs) fun _ s₁ h₁ => ?_
  rw [Run.bind_assoc, Run.sat_bind]
  obtain ⟨bytes₁, hem₁, hcode₁⟩ := h₁.calls.code
  refine binaryRight_sat op h₁ hr hrax (hem₁.tables hc) ?_ ?_
  · rintro imm rfl hle
    have heval : ∀ w (q : Word → Meaning σ Word), (W.eval true (.const w) >>= q) = q w :=
      fun w q => by rw [World.eval, Run.pure_bind']
    simp only [heval]
    rw [opImmBytes_compare h]
    have himm : Code (emitAluImm 7 .rax imm) [.aluImm .cmp .rax imm] :=
      code_aluImm (by decide) rfl (int32_of_le hle)
    have hcmp : Emits s₁ { s₁ with range := rest, buf := s₁.buf ++ emitAluImm 7 .rax imm }
        (emitAluImm 7 .rax imm) := .of_eq (.of_code himm rfl) rfl rfl rfl rfl rfl
    refine emitJcc_decides (hem₁.trans hcmp) rfl h₁.busy ⟨h₁.depth.depth, h₁.depth.bound⟩
      fun k hk hsize hal => ?_
    have hleft := (hcode₁ k (by omega) hsize fun _ => hal).of_keep fun _ hr =>
      Kept.left hr hcmp.toAppended
    refine hleft.bind fun v => ?_
    refine does_flags (g := fun m => .ofSub (m.regs .rax) (BitVec.ofNat 64 imm)) himm
      (fun m => ?_) fun m hm => ?_
    · rw [Instr.step, BitVec.ofInt_natCast, Machine.alu]
    · rw [← hm]
      exact tested_compare h rfl
  · intro held a b s₂ hops _
    rw [opBytes_compare h]
    obtain ⟨bytes₂, hem₂, hcode₂⟩ := hops.code
    have hcmp : Emits s₂ (freed { s₂ with buf := s₂.buf ++ emitCmpRr a b } held)
        (emitCmpRr a b) := .of_eq (.of_code (code_cmpRr a b) rfl) rfl rfl rfl rfl rfl
    have hdepth : Deeper 0 s (freed { s₂ with buf := s₂.buf ++ emitCmpRr a b } held) :=
      ⟨hops.depth.depth, hops.depth.bound⟩
    refine emitJcc_decides (hem₂.trans hcmp) hops.range ?_ hdepth fun k hk hsize hal => ?_
    · change s₂.fn.busy &&& ~~~ regBit held = s.fn.busy
      rw [hops.busy, busy_free hops.free]
    · have hpair := (hcode₂ k hk hsize fun _ => hal).of_keep fun r
          (hr : Kept False .rax s (freed { s₂ with buf := s₂.buf ++ emitCmpRr a b } held) r) =>
        (hr.left hcmp.toAppended).of_calls
      have hdone := hpair.bind (g := fun p => pure (op.apply p.1 p.2)) fun p =>
        does_flags (g := fun m => .ofSub (m.regs a) (m.regs b)) (code_cmpRr a b) (fun _ => rfl)
          fun m hm => by
            rw [← hm.1, ← hm.2]
            exact tested_compare h rfl
      simp only [Run.bind_assoc, Run.pure_bind'] at hdone
      exact hdone

/-- Any other condition: its value is tested. -/
theorem single_decides {rec : GenExpr} (h : Subtree W ext L c rec l e) (hc : SameTables c s.cup)
    (hs : s.range = l ++ rest) :
    (single rec .rax (some .rax) >>= fun _ => emit (emitTestRr .rax .rax) >>= fun _ =>
      emitJccRel32 .e).Sat s
      (fun patch s' => Decides W ext (W.words e) (W.eval true e) rest patch s s') GivesUp := by
  refine sat_then (h.single rfl hc hs) fun _ s₁ h₁ => ?_
  rw [Run.sat_bind, emit, Run.sat_modify]
  obtain ⟨bytes₁, hem₁, hcode₁⟩ := h₁.calls.code
  have htest : Emits s₁ { s₁ with buf := s₁.buf ++ emitTestRr .rax .rax } (emitTestRr .rax .rax) :=
    .of_eq (.of_code (code_testRr .rax .rax) rfl) rfl rfl rfl rfl rfl
  refine emitJcc_decides (hem₁.trans htest) h₁.range h₁.busy ⟨h₁.depth.depth, h₁.depth.bound⟩
    fun k hk hsize hal => ?_
  have hvalue := (hcode₁ k hk hsize fun _ => hal).of_keep fun _ hr =>
    Kept.left hr htest.toAppended
  refine hvalue.then_code fun v => ?_
  refine does_flags (g := fun m => .ofAnd (m.regs .rax) (m.regs .rax)) (code_testRr .rax .rax)
    (fun _ => rfl) fun m hm => ⟨_, rfl, ?_⟩
  change (m.regs .rax &&& m.regs .rax == 0) = true ↔ v = 0
  rw [BitVec.and_self, beq_iff_eq, hm]

/-- A tree starts with a token: of a comparison, or of something else. -/
theorem Reads.condition (h : Reads L c l e) : ∃ loc more, l = .tok loc :: more ∧
    (isCompare loc.token = false ∨ ∃ op l₁ l₂ a b, isCompare op.token = true ∧
      loc.token = op.token ∧ more = l₁ ++ l₂ ∧ e = .binary op a b ∧ Reads L c l₁ a ∧
      Reads L c l₂ b) := by
  have hother : ∀ {loc : Loc} {more : List Node} {t : CTType}, loc.token = t →
      isCompare t = false → ∃ loc' more', Node.tok loc :: more = .tok loc' :: more' ∧
        (isCompare loc'.token = false ∨ ∃ op l₁ l₂ a b, isCompare op.token = true ∧
          loc'.token = op.token ∧ more' = l₁ ++ l₂ ∧ e = .binary op a b ∧ Reads L c l₁ a ∧
          Reads L c l₂ b) := by
    rintro loc more t rfl ht
    exact ⟨loc, more, rfl, .inl ht⟩
  cases h with
  | number ht _ => exact hother ht rfl
  | string ht =>
    rcases ht with ht | ht
    · exact hother ht rfl
    · exact hother ht rfl
  | var ht _ => exact hother ht rfl
  | this ht _ => exact hother ht rfl
  | address ht => exact hother ht rfl
  | array ht => exact hother ht rfl
  | index ht => exact hother ht rfl
  | assign ht => exact hother ht rfl
  | addAssign ht => exact hother ht rfl
  | @binary loc op l₁ l₂ a b ht hl hr =>
    cases hop : isCompare op.token with
    | false => exact hother ht hop
    | true => exact ⟨loc, _, rfl, .inr ⟨op, l₁, l₂, a, b, hop, ht, rfl, rfl, hl, hr⟩⟩
  | call ht => exact hother ht rfl

theorem Reads.subtree_of_lt (hcalls : CallsAs W ext) (h : Reads L c l e) (hn : l.length < n) :
    Subtree W ext L c (codegenExpr L n) l e :=
  h.subtree (h.compiles hcalls) hn

/-- `gen_jump_if_false`. -/
theorem genJumpIfFalse_decides (hcalls : CallsAs W ext) (h : Reads L c l e) (hn : l.length < n)
    (hc : SameTables c s.cup) (hs : s.range = l ++ rest) :
    (genJumpIfFalse (codegenExpr L n)).Sat s
      (fun patch s' => Decides W ext (W.words e) (W.eval true e) rest patch s s') GivesUp := by
  obtain ⟨loc, more, rfl, hcases⟩ := h.condition
  rcases hcases with ht | ⟨op, l₁, l₂, a, b, hop, ht, rfl, rfl, ha, hb⟩
  · unfold Run.Sat
    rw [genJumpIfFalse_value hs ht]
    exact single_decides (h.subtree_of_lt hcalls hn) hc hs
  · rw [List.length_cons, List.length_append] at hn
    have hsat : (compareOperands (codegenExpr L n) op.token >>= fun _ =>
        emitJccRel32 (negCond (compareCc op.token))).Sat { s with range := l₁ ++ (l₂ ++ rest) }
        (fun patch s' => Decides W ext (max (W.words a) (W.words b))
          (W.eval true a >>= fun v => W.eval true b >>= fun w => pure (op.apply v w))
          rest patch { s with range := l₁ ++ (l₂ ++ rest) } s') GivesUp :=
      compareOperands_decides hop (ha.subtree_of_lt hcalls (by omega))
        (hb.subtree_of_lt hcalls (by omega)) hc rfl
    rw [World.eval, World.words]
    rw [List.cons_append, List.append_assoc] at hs
    unfold Run.Sat at hsat ⊢
    rw [genJumpIfFalse_compare hs (ht ▸ hop), ht]
    cases hrun : (compareOperands (codegenExpr L n) op.token >>= fun _ =>
        emitJccRel32 (negCond (compareCc op.token))) { s with range := l₁ ++ (l₂ ++ rest) } with
    | ok patch s' =>
      rw [hrun] at hsat
      obtain ⟨hrange, hbusy, hdepth, cond, cc, hem, hcond, hpatch, hcode⟩ := hsat
      exact ⟨hrange, hbusy, ⟨hdepth.depth, hdepth.bound⟩, cond, cc,
        ⟨hem.buf, hem.used, hem.cup, hem.returns, hem.reallocs⟩, hcond, hpatch, hcode⟩
    | stop stop s' =>
      rw [hrun] at hsat
      exact hsat

end Conditions

/-! ## Statements -/

/-- The nodes of statements, for the generator with the tables of the first state; a block opens a
    scope, and the tables of the last state are those behind the statements. -/
inductive ReadsBody (L : Layout) : CUPState → List Node → List Stmt → CUPState → Prop where
  | nil {c : CUPState} : ReadsBody L c [] [] c
  | expr {c c' : CUPState} {l more : List Node} {e : Expr} {ss : List Stmt} : Reads L c l e →
    ReadsBody L c more ss c' → ReadsBody L c (l ++ more) (.expr e :: ss) c'
  | block {c c₁ c' : CUPState} {loc : Loc} {l more : List Node} {bs ss : List Stmt} :
    loc.token = .nBlock → ReadsBody L { c with scope := c.scope + 1 } l bs c₁ →
    ReadsBody L c₁ more ss c' →
    ReadsBody L c (.tok loc :: .value bs.length :: (l ++ more)) (.block bs :: ss) c'
  | list {c c₁ c' : CUPState} {loc : Loc} {l more : List Node} {bs ss : List Stmt} :
    loc.token = .tComma → ReadsBody L c l bs c₁ → ReadsBody L c₁ more ss c' →
    ReadsBody L c (.tok loc :: .value bs.length :: (l ++ more)) (.block bs :: ss) c'
  | ite {c c₁ c' : CUPState} {loc : Loc} {l l' more : List Node} {e : Expr} {body : Stmt}
    {ss : List Stmt} : loc.token = .tIf → Reads L c l e → ReadsBody L c l' [body] c₁ →
    ReadsBody L c₁ more ss c' →
    ReadsBody L c (.tok loc :: (l ++ (l' ++ more))) (.ite e body :: ss) c'
  | loop {c c₁ c' : CUPState} {loc : Loc} {l l' more : List Node} {e : Expr} {body : Stmt}
    {ss : List Stmt} : loc.token = .tWhile → Reads L c l e → ReadsBody L c l' [body] c₁ →
    ReadsBody L c₁ more ss c' →
    ReadsBody L c (.tok loc :: (l ++ (l' ++ more))) (.loop e body :: ss) c'
  | ret {c c' : CUPState} {loc : Loc} {l more : List Node} {e : Expr} {ss : List Stmt} :
    loc.token = .tReturn → Reads L c l e → ReadsBody L c more ss c' →
    ReadsBody L c (.tok loc :: (l ++ more)) (.ret e :: ss) c'

section Statements

variable {σ : Type} (W : World σ) (ext : Reg → Machine → σ → Option (Machine × σ))

/-- The nodes of statements were taken, and their code was emitted. -/
structure Executes (ss : List Stmt) (c' : CUPState) (rest : List Node) (s s' : GenState) :
    Prop where
  range : s'.range = rest
  tables : SameTables c' s'.cup
  busy : s'.fn.busy = s.fn.busy
  depth : Deeper 0 s s'
  code : ∃ cs, EmitsChunks s s' cs ∧ Laid ss cs ∧ ∀ k, 8 * W.bodyWords ss ≤ k →
    k ≤ W.stack.size → Aligned W.stack k s.fn.depth → CodeOf W ext (Kept False .rax s s') k ss cs

variable {W} {ext} {L : Layout} {c c₁ c' : CUPState} {s s₁ s₂ s' : GenState}
  {l rest more : List Node} {ss : List Stmt} {st body : Stmt} {e : Expr} {b : List Chunk}
  {cond : Bytes} {cc : Cond} {n k patch : Nat}

/-- The generator starts with other nodes. -/
theorem Executes.of_start (h : Executes W ext ss c' rest s₁ s') (hbuf : s₁.buf = s.buf)
    (hfn : s₁.fn = s.fn) (hreturns : s₁.returns = s.returns) (hreallocs : s₁.reallocs = s.reallocs) :
    Executes W ext ss c' rest s s' := by
  obtain ⟨cs, hem, hlaid, hcode⟩ := h.code
  have hdepth : Deeper 0 s s₁ := .of_eq (by rw [hfn])
  refine ⟨h.range, h.tables, by rw [h.busy, hfn], hdepth.trans h.depth rfl, cs, ⟨?_, ?_, ?_, ?_⟩,
    hlaid, fun k hk hsize hal => ?_⟩
  · rw [hem.buf, hbuf]
  · rw [hem.returns, hbuf, hreturns]
  · rw [← hfn]
    exact hem.used
  · rw [hem.reallocs, hreallocs]
  · refine (hcode k hk hsize (hfn ▸ hal)).of_keep fun r hr => hr.mono ?_ fun _ hu => hu
    rw [hfn]
    exact fun _ hb => hb

theorem Executes.block (h : Executes W ext ss c' rest s s') :
    Executes W ext [.block ss] c' rest s s' := by
  obtain ⟨cs, hem, hlaid, hcode⟩ := h.code
  refine ⟨h.range, h.tables, h.busy, h.depth, cs, hem, hlaid.block, fun k hk hsize hal => ?_⟩
  rw [World.bodyWords, World.stmtWords, World.bodyWords] at hk
  exact (hcode k (by omega) hsize hal).block

/-- Statements behind a statement. -/
theorem Executes.cons (h : Executes W ext [st] c₁ more s s₁)
    (h' : Executes W ext ss c' rest s₁ s') : Executes W ext (st :: ss) c' rest s s' := by
  obtain ⟨a, hem, hlaid, hcode⟩ := h.code
  obtain ⟨b, hem', hlaid', hcode'⟩ := h'.code
  refine ⟨h'.range, h'.tables, h'.busy.trans h.busy, h.depth.trans h'.depth rfl, a ++ b,
    hem.trans hem', hlaid.cons hlaid', fun k hk hsize hal => ?_⟩
  have hwords : W.bodyWords [st] ≤ W.bodyWords (st :: ss) := by
    rw [World.bodyWords, World.bodyWords, World.bodyWords]
    omega
  have hwords' : W.bodyWords ss ≤ W.bodyWords (st :: ss) := by
    rw [World.bodyWords]
    omega
  have hal' := h.depth.aligned_of hal
  refine CodeOf.cons hlaid'.shape ((hcode k (by omega) hsize hal).of_keep fun r hr => ?_)
    ((hcode' k (by omega) hsize hal').of_keep fun r hr => ?_)
  · exact hr.mono (fun _ hb => hb) hem'.used
  · exact hr.mono (fun _ hb => h.busy ▸ hb) fun _ hu => hu

/-- An expression whose value is not used. -/
theorem Evaluates.executes (h : Evaluates W ext (W.words e) (W.eval false e) .rax rest s s')
    (hc : SameTables c s.cup) : Executes W ext [.expr e] c rest s s' := by
  obtain ⟨bytes, hem, hcode⟩ := h.code
  have hpos : 0 < bytes.length := by
    have hgrows := h.grows
    rw [hem.buf, List.length_append] at hgrows
    omega
  refine ⟨h.range, hem.tables hc, h.busy, h.depth, _, hem.chunk, .expr hem.straight hpos,
    fun k hk hsize hal => ?_⟩
  rw [World.bodyWords, World.stmtWords] at hk
  exact codeOf_expr ((hcode k (by omega) hsize fun _ => hal).of_keep fun _ hr => hr.of_calls)

theorem emitJmpRel32_eq (s : GenState) : emitJmpRel32 s =
    .ok (s.buf.length + 1) { s with buf := s.buf ++ (jmpOpcode ++ emiti32 0) } := by
  have hlen : (s.buf ++ jmpOpcode).length = s.buf.length + 1 := by
    rw [List.length_append]
    rfl
  rw [← hlen, ← List.append_assoc]
  rfl

/-- A value is computed, and a jump is recorded. -/
theorem returnGen_executes {rec : GenExpr} (h : Compiles W ext c rec l e)
    (hc : SameTables c s.cup) (hs : s.range = l ++ rest) :
    (returnGen rec).Sat s (fun _ s' => Executes W ext [.ret e] c rest s s') GivesUp := by
  refine sat_then (h .rax (some .rax) s rest rfl hc hs) ?_
  rintro ⟨i, var⟩ s₁ ⟨hi, h₁⟩
  obtain rfl : i = 0 := hi
  dsimp only
  rw [if_neg (not_not.mpr rfl), Run.sat_bind, Run.sat_of_ok (emitJmpRel32_eq s₁), Run.sat_modify]
  obtain ⟨bytes, hem, hcode⟩ := h₁.code
  have hexit : EmitsChunks s₁ { s₁ with buf := s₁.buf ++ (jmpOpcode ++ emiti32 0)
                                        returns := s₁.returns ++ [s₁.buf.length + 1] } [.exit] :=
    ⟨by rw [Chunk.raw, Chunk.raw, List.append_nil], rfl, fun _ hr => hr, rfl⟩
  refine ⟨h₁.range, hem.tables hc, h₁.busy, ⟨h₁.depth.depth, h₁.depth.bound⟩, _,
    hem.chunk.trans hexit, .ret hem.straight, fun k hk hsize hal => ?_⟩
  rw [World.bodyWords, World.stmtWords] at hk
  exact codeOf_ret ((hcode k (by omega) hsize fun _ => hal).of_keep fun r hr =>
    (hr.mono (fun _ hb => hb) hexit.used).of_calls)

/-- The jump of a condition is patched, to lead behind what was emitted since. -/
theorem patchOver_sat {Q : Unit → GenState → Prop}
    (h : Appended s s₁ (cond ++ (jccOpcode cc ++ emiti32 0))) (h' : EmitsChunks s₁ s₂ b)
    (hpatch : patch = s.buf.length + cond.length + 2) (hq : ∀ rel s', Int32 rel →
      rel = Chunk.size b → EmitsChunks s s' (.code (cond ++ (jccOpcode cc ++ emiti32 rel)) :: b) →
      s' = { s₂ with buf := s'.buf } → Q () s') :
    (patchRel patch s₂.buf.length).Sat s₂ Q GivesUp := by
  have hop : (jccOpcode cc).length = 2 := by
    cases cc <;> rfl
  have hbuf : s₂.buf = s.buf ++ cond ++ jccOpcode cc ++ emiti32 0 ++ Chunk.raw b := by
    rw [h'.buf, h.buf]
    simp only [List.append_assoc]
  have hrel : (s₂.buf.length : Int) - (patch + 4) = Chunk.size b := by
    rw [hbuf, hpatch]
    simp only [List.length_append, emiti32_length, hop, Chunk.raw_length]
    push_cast
    omega
  refine patchRel_sat hbuf ?_ fun hint => ?_
  · rw [hpatch, List.length_append, List.length_append, hop]
  · rw [hrel] at hint ⊢
    refine hq _ _ hint rfl ⟨?_, ?_, fun r hr => h'.used r (h.used r hr), ?_⟩ rfl
    · rw [Chunk.raw]
      simp only [List.append_assoc]
    · have hlen : s₁.buf.length = s.buf.length +
          (cond ++ (jccOpcode cc ++ emiti32 (Chunk.size b))).length := by
        rw [h.buf]
        simp only [List.length_append, emiti32_length]
      rw [Chunk.sites, ← hlen, ← h.returns]
      exact h'.returns
    · exact h'.reallocs.trans h.reallocs

theorem statements_zero (rec : GenExpr) (n : Nat) : statements rec n 0 = pure () := by
  cases n with
  | zero => rfl
  | succ n => rfl

theorem statements_succ (rec : GenExpr) (n k : Nat) : statements rec (n + 1) (k + 1) =
    rec .rax none >>= fun r => statements rec n (k + r.1) := rfl

/-- `T_IF`, with a body that is executed. -/
theorem ifGen_executes (hcalls : CallsAs W ext) (h : Reads L c l e) (hn : l.length < n)
    (hc : SameTables c s.cup) (hs : s.range = l ++ more)
    (hbody : ∀ s₁, SameTables c s₁.cup → s₁.range = more →
      (statements (codegenExpr L n) n 1).Sat s₁
        (fun _ s' => Executes W ext [body] c₁ rest s₁ s') GivesUp) :
    (ifGen (codegenExpr L n) n).Sat s
      (fun _ s' => Executes W ext [.ite e body] c₁ rest s s') GivesUp := by
  refine sat_then (genJumpIfFalse_decides hcalls h hn hc hs) fun patch s₁ h₁ => ?_
  obtain ⟨cond, cc, hem, hstraight, hpatch, hcond⟩ := h₁.code
  refine sat_then (hbody s₁ (hem.tables hc) h₁.range) fun _ s₂ h₂ => ?_
  obtain ⟨b, hem', hlaid, hcode⟩ := h₂.code
  rw [Run.sat_bind, Run.sat_get]
  refine patchOver_sat hem hem' hpatch fun rel s' hint hrel hdone hs' => ?_
  have hfn : s'.fn = s₂.fn := by rw [hs']
  have hjump := code_jcc cc hint
  have hdepth : Deeper 0 s₂ s' := .of_eq (by rw [hfn])
  refine ⟨by rw [hs', h₂.range], by rw [hs']; exact h₂.tables, by rw [hfn, h₂.busy, h₁.busy],
    (h₁.depth.trans h₂.depth rfl).trans hdepth rfl, _, hdone, hlaid.ite hstraight hjump hrel,
    fun k hk hsize hal => ?_⟩
  have hwords : W.bodyWords [.ite e body] = max (W.words e) (W.bodyWords [body]) := by
    rw [World.bodyWords, World.bodyWords, World.stmtWords, World.bodyWords, World.bodyWords]
    omega
  have hal' := h₁.depth.aligned_of hal
  refine CodeOf.ite ((hcode k (by omega) hsize hal').of_keep fun r hr => ?_)
    ((hcond k (by omega) hsize hal).of_keep fun r hr => ?_) hjump hrel
  · exact hr.mono (fun _ hb => h₁.busy ▸ hb) fun r hu => hfn ▸ hu
  · exact hr.mono (fun _ hb => hb) fun r hu => hfn ▸ hem'.used r hu

/-- `T_WHILE`. -/
theorem whileGen_executes (hcalls : CallsAs W ext) (h : Reads L c l e) (hn : l.length < n)
    (hc : SameTables c s.cup) (hs : s.range = l ++ more)
    (hbody : ∀ s₁, SameTables c s₁.cup → s₁.range = more →
      (statements (codegenExpr L n) n 1).Sat s₁
        (fun _ s' => Executes W ext [body] c₁ rest s₁ s') GivesUp) :
    (whileGen (codegenExpr L n) n).Sat s
      (fun _ s' => Executes W ext [.loop e body] c₁ rest s s') GivesUp := by
  unfold whileGen
  rw [Run.sat_bind, Run.sat_get]
  refine sat_then (genJumpIfFalse_decides hcalls h hn hc hs) fun patch s₁ h₁ => ?_
  obtain ⟨cond, cc, hem, hstraight, hpatch, hcond⟩ := h₁.code
  refine sat_then (hbody s₁ (hem.tables hc) h₁.range) fun _ s₂ h₂ => ?_
  obtain ⟨b, hem', hlaid, hcode⟩ := h₂.code
  rw [Run.sat_bind, Run.sat_of_ok (emitJmpRel32_eq s₂), Run.sat_bind]
  have hsplit : s₂.buf ++ (jmpOpcode ++ emiti32 0) = s₂.buf ++ jmpOpcode ++ emiti32 0 ++ [] := by
    rw [List.append_nil, List.append_assoc]
  have hop : s₂.buf.length + 1 = (s₂.buf ++ jmpOpcode).length := by
    rw [List.length_append]
    rfl
  refine patchRel_sat hsplit hop fun hint => ?_
  -- behind the jump to the condition
  rw [Run.sat_bind, Run.sat_get, List.append_nil, List.append_assoc]
  have hlen : s₂.buf.length = s.buf.length + cond.length + 6 + Chunk.size b := by
    rw [hem'.buf, hem.buf]
    simp only [List.length_append, Chunk.raw_length]
    have hjcc := jcc_length cc
    rw [List.length_append] at hjcc
    omega
  have hjump : EmitsChunks s₂ { s₂ with buf := s₂.buf ++ (jmpOpcode ++
      emiti32 ((s.buf.length : Int) - ((s₂.buf.length + 1 : Nat) + 4))) } [.code (jmpOpcode ++
        emiti32 ((s.buf.length : Int) - ((s₂.buf.length + 1 : Nat) + 4)))] :=
    Appended.chunk (.of_eq rfl rfl rfl rfl rfl)
  have hback := code_jmp hint
  refine patchOver_sat hem (hem'.trans hjump) hpatch fun rel s' hint' hrel hdone hs' => ?_
  have hfn : s'.fn = s₂.fn := by rw [hs']
  have hdepth : Deeper 0 s₂ s' := .of_eq (by rw [hfn])
  have hover := code_jcc cc hint'
  rw [Chunk.size_append, Chunk.size_code, Chunk.size_nil, Nat.add_zero] at hrel
  have hagain : (s.buf.length : Int) - ((s₂.buf.length + 1 : Nat) + 4) =
      -((cond ++ (jccOpcode cc ++ emiti32 rel)).length + Chunk.size b + (jmpOpcode ++ emiti32
        ((s.buf.length : Int) - ((s₂.buf.length + 1 : Nat) + 4))).length : Nat) := by
    have hjcc := jcc_length cc
    rw [List.length_append] at hjcc
    rw [hlen]
    simp only [List.length_append, emiti32_length]
    have hone : jmpOpcode.length = 1 := rfl
    rw [emiti32_length] at hjcc
    push_cast
    omega
  refine ⟨by rw [hs', h₂.range], by rw [hs']; exact h₂.tables, by rw [hfn, h₂.busy, h₁.busy],
    (h₁.depth.trans h₂.depth rfl).trans hdepth rfl, _, hdone,
    hlaid.loop hstraight hover hrel hback hagain, fun k hk hsize hal => ?_⟩
  have hwords : W.bodyWords [.loop e body] = max (W.words e) (W.bodyWords [body]) := by
    rw [World.bodyWords, World.bodyWords, World.stmtWords, World.bodyWords, World.bodyWords]
    omega
  have hal' := h₁.depth.aligned_of hal
  refine CodeOf.loop ((hcode k (by omega) hsize hal').of_keep fun r hr => ?_)
    ((hcond k (by omega) hsize hal).of_keep fun r hr => ?_) hover hrel hback hagain
  · exact hr.mono (fun _ hb => h₁.busy ▸ hb) fun r hu => hfn ▸ hu
  · exact hr.mono (fun _ hb => hb) fun r hu => hfn ▸ hem'.used r hu

/-! ### The loop over the trees -/

variable (W) (ext) (L) in
/-- The loop over the trees of a body takes the nodes of the statements and emits their code, and
    goes on with `k` more trees. -/
def CompilesBody (c : CUPState) (l : List Node) (ss : List Stmt) (c' : CUPState) : Prop :=
  ∀ (Q : Unit → GenState → Prop) (n m k : Nat) (s : GenState) (rest : List Node), l.length < m →
    l.length ≤ n → SameTables c s.cup → s.range = l ++ rest →
    (∀ n' s', n ≤ n' + l.length → Executes W ext ss c' rest s s' →
      (statements (codegenExpr L m) n' k).Sat s' Q GivesUp) →
    (statements (codegenExpr L m) n (ss.length + k)).Sat s Q GivesUp

theorem compilesBody_nil : CompilesBody W ext L c [] [] c := by
  intro Q n m k s rest _ _ hc hs hk
  rw [List.length_nil, Nat.zero_add]
  refine hk n s (Nat.le_refl n) ⟨hs, hc, rfl, .of_eq rfl, [], ⟨?_, ?_, fun _ hr => hr, rfl⟩, .nil,
    fun _ _ _ _ => codeOf_nil⟩
  · exact (List.append_nil _).symm
  · exact (List.append_nil _).symm

/-- A tree that is a statement. -/
theorem CompilesBody.cons (hss : CompilesBody W ext L c₁ more ss c') (hpos : 0 < l.length)
    (h : ∀ m s rest, l.length < m → SameTables c s.cup → s.range = l ++ rest →
      (codegenExpr L m .rax none).Sat s (fun r s' => r.1 = 0 ∧ Executes W ext [st] c₁ rest s s')
        GivesUp) : CompilesBody W ext L c (l ++ more) (st :: ss) c' := by
  intro Q n m k s rest hm hn hc hs hk
  rw [List.length_append] at hm hn hk
  rw [List.append_assoc] at hs
  obtain ⟨n, rfl⟩ : ∃ i, n = i + 1 := ⟨n - 1, by omega⟩
  have hlen : (st :: ss).length + k = ss.length + k + 1 := by
    rw [List.length_cons]
    omega
  rw [hlen, statements_succ]
  refine sat_then (h m s (more ++ rest) (by omega) hc hs) ?_
  rintro r s₁ ⟨hr, h₁⟩
  rw [hr, Nat.add_zero]
  refine hss Q n m k s₁ rest (by omega) (by omega) h₁.tables h₁.range fun n' s' hn' h' => ?_
  exact hk n' s' (by omega) (h₁.cons h')

/-- A tree that stands for statements. -/
theorem CompilesBody.block {c₀ : CUPState} {loc : Loc} {bs : List Stmt} {f : CUPState → CUPState}
    (hbs : CompilesBody W ext L c₀ l bs c₁) (hss : CompilesBody W ext L c₁ more ss c')
    (hf : ∀ cup, SameTables c cup → SameTables c₀ (f cup))
    (hrun : ∀ m s rest, s.range = .tok loc :: .value bs.length :: rest →
      codegenExpr L (m + 1) .rax none s =
        .ok (bs.length, none) { s with cup := f s.cup, range := rest }) :
    CompilesBody W ext L c (.tok loc :: .value bs.length :: (l ++ more)) (.block bs :: ss) c' := by
  intro Q n m k s rest hm hn hc hs hk
  simp only [List.length_cons, List.length_append] at hm hn hk
  simp only [List.cons_append, List.append_assoc] at hs
  obtain ⟨n, rfl⟩ : ∃ i, n = i + 1 := ⟨n - 1, by omega⟩
  have hm₁ : m = m - 1 + 1 := by omega
  have hok : codegenExpr L m .rax none s =
      .ok (bs.length, none) { s with cup := f s.cup, range := l ++ (more ++ rest) } :=
    hm₁ ▸ hrun (m - 1) s _ hs
  have hlen : (Stmt.block bs :: ss).length + k = ss.length + k + 1 := by
    rw [List.length_cons]
    omega
  have hcount : ss.length + k + bs.length = bs.length + (ss.length + k) := Nat.add_comm _ _
  rw [hlen, statements_succ, Run.sat_bind, Run.sat_of_ok hok, hcount]
  refine hbs Q n m _ _ (more ++ rest) (by omega) (by omega) (hf _ hc) rfl fun n₁ s₁ hn₁ h₁ => ?_
  refine hss Q n₁ m k s₁ rest (by omega) (by omega) h₁.tables h₁.range fun n' s' hn' h' => ?_
  have hblock : Executes W ext [.block bs] c₁ (more ++ rest) s s₁ :=
    h₁.block.of_start rfl rfl rfl rfl
  exact hk n' s' (by omega) (hblock.cons h')

theorem CompilesBody.single (h : CompilesBody W ext L c l [body] c₁) {m : Nat} (hm : l.length < m)
    (hn : l.length ≤ n) (hc : SameTables c s.cup) (hs : s.range = l ++ rest) :
    (statements (codegenExpr L m) n 1).Sat s
      (fun _ s' => Executes W ext [body] c₁ rest s s') GivesUp := by
  refine h _ n m 0 s rest hm hn hc hs fun n' s' _ h' => ?_
  rw [statements_zero]
  exact h'

/-- Behind its token, a statement is compiled by the code of its case. -/
theorem executes_case {x : Gen Unit} {m : Nat} (more : List Node)
    (hcase : codegenExpr L (m + 1) .rax none s =
      (x >>= fun _ => pure (0, none)) { s with range := more })
    (hx : x.Sat { s with range := more }
      (fun _ s' => Executes W ext [st] c₁ rest { s with range := more } s') GivesUp) :
    (codegenExpr L (m + 1) .rax none).Sat s
      (fun r s' => r.1 = 0 ∧ Executes W ext [st] c₁ rest s s') GivesUp := by
  have hsat : (x >>= fun _ => pure ((0 : Nat), (none : Option Nat))).Sat { s with range := more }
      (fun r s' => r.1 = 0 ∧ Executes W ext [st] c₁ rest s s') GivesUp :=
    sat_then hx fun _ s' h => ⟨rfl, h.of_start rfl rfl rfl rfl⟩
  unfold Run.Sat at hsat ⊢
  rw [hcase]
  exact hsat

/-- **The code of a body does what its statements say.** -/
theorem ReadsBody.compiles (hcalls : CallsAs W ext) (h : ReadsBody L c l ss c') :
    CompilesBody W ext L c l ss c' := by
  induction h with
  | nil => exact compilesBody_nil
  | @expr c c' l more e ss he _ ih =>
    refine ih.cons he.length_pos fun m s rest hm hc hs => ?_
    refine Run.sat_mono ((he.subtree_of_lt hcalls hm).tree .rax none s rest rfl hc hs) ?_
      fun _ _ h => h
    rintro r s' ⟨hr, h'⟩
    exact ⟨hr, Evaluates.executes h' hc⟩
  | @block c c₁ c' loc l more bs ss ht _ _ ihb ihs =>
    refine ihb.block ihs (f := fun cup => { cup with scope := cup.scope + 1 }) ?_ ?_
    · rintro _ ⟨t, rfl⟩
      exact ⟨t, rfl⟩
    · intro m s rest hs
      have hvalue : getNodeValue { s with cup := { s.cup with scope := s.cup.scope + 1 }
                                          range := .value bs.length :: rest } = .ok _ _ :=
        getNodeValue_ok rfl
      simp only [codegenExpr, Run.get_bind, Run.bind_of_ok (getNodeToken_ok hs), ht, Run.modify_bind]
      rw [Run.bind_of_ok hvalue]
      rfl
  | @list c c₁ c' loc l more bs ss ht _ _ ihb ihs =>
    refine ihb.block ihs (f := id) (fun _ h => h) ?_
    intro m s rest hs
    have hvalue : getNodeValue { s with range := .value bs.length :: rest } = .ok _ _ :=
      getNodeValue_ok rfl
    simp only [codegenExpr, Run.get_bind, Run.bind_of_ok (getNodeToken_ok hs), ht]
    rw [Run.bind_of_ok hvalue]
    rfl
  | @ite c c₁ c' loc l l' more e body ss ht he _ _ ihb ihs =>
    have hassoc : Node.tok loc :: (l ++ (l' ++ more)) = (.tok loc :: (l ++ l')) ++ more := by
      rw [List.cons_append, List.append_assoc]
    rw [hassoc]
    refine ihs.cons (Nat.succ_pos _) fun m s rest hm hc hs => ?_
    simp only [List.length_cons, List.length_append] at hm
    obtain ⟨m, rfl⟩ : ∃ i, m = i + 1 := ⟨m - 1, by omega⟩
    rw [List.cons_append, List.append_assoc] at hs
    refine executes_case (l ++ (l' ++ rest)) (x := ifGen (codegenExpr L m) m) ?_ ?_
    · simp only [codegenExpr, Run.get_bind, Run.bind_of_ok (getNodeToken_ok hs), ht]
    · exact ifGen_executes hcalls he (by omega) hc rfl fun s₁ hc₁ hs₁ =>
        ihb.single (by omega) (by omega) hc₁ hs₁
  | @loop c c₁ c' loc l l' more e body ss ht he _ _ ihb ihs =>
    have hassoc : Node.tok loc :: (l ++ (l' ++ more)) = (.tok loc :: (l ++ l')) ++ more := by
      rw [List.cons_append, List.append_assoc]
    rw [hassoc]
    refine ihs.cons (Nat.succ_pos _) fun m s rest hm hc hs => ?_
    simp only [List.length_cons, List.length_append] at hm
    obtain ⟨m, rfl⟩ : ∃ i, m = i + 1 := ⟨m - 1, by omega⟩
    rw [List.cons_append, List.append_assoc] at hs
    refine executes_case (l ++ (l' ++ rest)) (x := whileGen (codegenExpr L m) m) ?_ ?_
    · simp only [codegenExpr, Run.get_bind, Run.bind_of_ok (getNodeToken_ok hs), ht]
    · exact whileGen_executes hcalls he (by omega) hc rfl fun s₁ hc₁ hs₁ =>
        ihb.single (by omega) (by omega) hc₁ hs₁
  | @ret c c' loc l more e ss ht he _ ih =>
    refine ih.cons (l := .tok loc :: l) (Nat.succ_pos _) fun m s rest hm hc hs => ?_
    rw [List.length_cons] at hm
    obtain ⟨m, rfl⟩ : ∃ i, m = i + 1 := ⟨m - 1, by omega⟩
    rw [List.cons_append] at hs
    refine executes_case (l ++ rest) (x := returnGen (codegenExpr L m)) ?_ ?_
    · simp only [codegenExpr, Run.get_bind, Run.bind_of_ok (getNodeToken_ok hs), ht]
    · exact returnGen_executes (he.subtree_of_lt hcalls (by omega)).tree hc rfl

end Statements

end Cup
