/-
  The code of operators, subscripts, assignments and array literals (`gen_binary` and the cases of
  `codegen_expr`, `src/codegen/x64codegen.c`) does what `World.eval` does, for operands of which
  that is so (`Subtree`).
-/
import Cup.Operand

namespace Cup

open Lib (Stop Run Res)
open Lib.X64

/-! ## Code behind an operand -/

section Behind

variable {σ : Type} {W : World σ} {ext : Reg → Machine → σ → Option (Machine × σ)}
  {treg : X64Reg} {s s₁ s' : GenState} {need need' : Nat} {f : Meaning σ Word}
  {rest more : List Node}

theorem Works.of_need {calm : Prop} {α : Type} {pre : Machine → Prop} {f : Meaning σ α}
    {post : α → Machine → Prop} (h : Works W ext calm treg need pre f post rest s s')
    (hle : need ≤ need') : Works W ext calm treg need' pre f post rest s s' := by
  obtain ⟨bytes, hem, hcode⟩ := h.code
  exact ⟨h.range, h.busy, h.depth, bytes, hem, fun k hk => hcode k (by omega)⟩

theorem Evaluates.of_need (h : Evaluates W ext need f treg rest s s') (hle : need ≤ need') :
    Evaluates W ext need' f treg rest s s' :=
  ⟨h.toWorks.of_need hle, h.grows⟩

theorem Operands.of_need {g : Meaning σ Word} {held a b : X64Reg}
    (h : Operands W ext need f g treg held a b rest s s') (hle : need ≤ need') :
    Operands W ext need' f g treg held a b rest s s' := by
  obtain ⟨bytes, hem, hcode⟩ := h.code
  exact ⟨h.range, h.free, h.busy, h.depth, h.left, h.right, h.grows, bytes, hem, fun k hk =>
    hcode k (by omega)⟩

/-- More code, which has no calls, goes on with the value. -/
theorem Evaluates.next {q : Word → Meaning σ Word} {tail : Bytes}
    (h : Evaluates W ext need f treg more s s₁) (hem : Emits s₁ s' tail) (hrange : s'.range = rest)
    (hfn : s'.fn = s₁.fn) (hcode : ∀ k v, Does W.stack ext (Kept W.Calm treg s s') k k k tail
      (fun m => m.regs treg = v) (q v) fun u m => m.regs treg = u) :
    Evaluates W ext need (f >>= q) treg rest s s' := by
  obtain ⟨bytes, hem₁, hdoes⟩ := h.code
  refine ⟨⟨hrange, by rw [hfn, h.busy], h.depth.trans (.of_eq (by rw [hfn])) rfl, _,
    hem₁.trans hem, fun k hk hsize hal => ?_⟩, h.grows.trans_le hem.length_le⟩
  have hleft : Does W.stack ext (Kept W.Calm treg s s') k k k bytes (fun _ => True) f
      fun v m => m.regs treg = v :=
    (hdoes k hk hsize hal).of_keep fun _ hr => hr.left hem.toAppended
  exact hleft.bind fun v => hcode k v

theorem scratch_ne {r : X64Reg} (h : r.calleeSaved = false) : r ≠ .rsp := by
  rintro rfl
  cases h

/-- What is written to the target register is not kept. -/
theorem target_not_kept {calm : Prop} (ht : treg.calleeSaved = false) :
    ∀ q ∈ [treg], ¬ Kept calm treg s s' q := fun q hq => by
  rw [List.mem_singleton.mp hq]
  exact not_kept_target ht

theorem rsp_not_target {r : X64Reg} (hr : r ≠ .rsp) : .rsp ∉ [r] :=
  fun h => hr (List.mem_singleton.mp h).symm

theorem ite_bind_eq {α : Type} {c : Prop} [Decidable c] {x y z : Gen Unit}
    (h : (if c then x else y) = z) (k : Unit → Gen α) :
    (if c then x >>= k else y >>= k) = z >>= k := by
  subst h
  split <;> rfl

theorem emit_ite {c : Prop} [Decidable c] (b : Bytes) :
    (if c then emit b else pure ()) = emit (if c then b else []) := by
  split
  · rfl
  · exact emit_nil.symm

theorem ite_emit_bind {α : Type} {c : Prop} [Decidable c] (b : Bytes) (q : Gen α) :
    (if c then emit b >>= fun _ => q else q) = emit (if c then b else []) >>= fun _ => q := by
  split
  · rfl
  · rw [emit_nil]
    rfl

end Behind

/-! ## Operators -/

section Operators

variable {σ : Type} {W : World σ} {ext : Reg → Machine → σ → Option (Machine × σ)} {L : Layout}
  {c : CUPState} {rec : GenExpr} {treg : X64Reg} {s : GenState} {l l' rest : List Node}
  {e e' : Expr}

/-- `gen_binary` without `flags_only`. -/
theorem genBinary_eq (op : BinOp) : genBinary rec op.token treg false =
    single rec treg (some treg) >>= fun _ => binaryRight rec op.token treg >>= fun res =>
      emit (resultBytes op treg res) >>= fun _ =>
        pure (if isCompare op.token then compareCc op.token else .e) := by
  cases op <;> rfl

/-- A register is given back. -/
def freed (s : GenState) (r : X64Reg) : GenState :=
  { s with fn := { s.fn with busy := s.fn.busy &&& ~~~ regBit r } }

/-- The right operand: a number in the instruction, or operands in two registers. -/
theorem binaryRight_sat {f : Meaning σ Word} {need : Nat} {s₁ : GenState}
    {Q : X64Reg → GenState → Prop} (op : BinOp)
    (h₁ : Evaluates W ext need f treg (l' ++ rest) s s₁) (hr : Subtree W ext L c rec l' e')
    (ht : treg.calleeSaved = false) (hc : SameTables c s₁.cup)
    (himm : ∀ imm, e' = .const (BitVec.ofNat 64 imm) → imm ≤ int32Max →
      Q treg { s₁ with range := rest, buf := s₁.buf ++ opImmBytes op treg imm })
    (hops : ∀ held a b s₂, Operands W ext (max need (W.words e')) f (W.eval true e') treg held a b
      rest s s₂ → a = treg ∨ a = held →
      Q a (freed { s₂ with buf := s₂.buf ++ opBytes op a b } held)) :
    (binaryRight rec op.token treg).Sat s₁ Q GivesUp := by
  unfold binaryRight
  rw [Run.sat_bind, Run.sat_get, h₁.range]
  dsimp only
  cases hi : isSmallImm (l' ++ rest) with
  | some imm =>
    obtain ⟨he, hlen⟩ := hr.reads.smallImm hi
    have hdrop : s₁.range.drop 2 = rest := by rw [h₁.range, ← hlen, List.drop_left]
    dsimp only
    rw [Run.sat_bind, skipNodes, Run.sat_modify, hdrop, ite_bind_eq (operation_imm op treg imm)]
    exact himm imm he (isSmallImm_le hi)
  | none =>
    simp only [ite_bind_eq (operation_rr op treg _), ite_bind_eq (operation_rr op _ treg)]
    split
    · rename_i hleaf
      rw [hr.reads.leafSize, Ne, ite_eq_right_iff, Classical.not_imp] at hleaf
      exact h₁.leafOperand hr hleaf.1 ht hc fun r s₂ h =>
        hops r treg r s₂ (h.of_need (Nat.le_max_left _ _)) (.inl rfl)
    · exact h₁.treeOperand hr ht hc fun r s₂ h => hops r r treg s₂ h (.inr rfl)

theorem genBinary_computes (op : BinOp) (hl : Subtree W ext L c rec l e)
    (hr : Subtree W ext L c rec l' e') (ht : treg.calleeSaved = false)
    (hc : SameTables c s.cup) (hs : s.range = l ++ (l' ++ rest)) :
    (genBinary rec op.token treg false).Sat s
      (fun _ s' => Evaluates W ext (max (W.words e) (W.words e'))
        (W.eval true e >>= fun v => W.eval true e' >>= fun w => pure (op.apply v w))
        treg rest s s') GivesUp := by
  rw [genBinary_eq]
  refine sat_then (hl.single ht hc hs) fun _ s₁ h₁ => ?_
  rw [Run.sat_bind]
  refine binaryRight_sat op h₁ hr ht (h₁.code.elim fun _ h => h.1.tables hc) ?_ ?_
  · rintro imm rfl hle
    have heval : ∀ w (q : Word → Meaning σ Word), (W.eval true (.const w) >>= q) = q w :=
      fun w q => by rw [World.eval, Run.pure_bind']
    simp only [heval]
    have hset : SetsTo ext _ [treg] treg _ := setsTo_opImm op treg hle
    refine Evaluates.of_need (h₁.next (.of_eq hset.straight (List.append_assoc _ _ _) rfl rfl rfl
      rfl) rfl rfl fun k v => ?_) (Nat.le_max_left _ _)
    refine does_sets hset (target_not_kept ht) (rsp_not_target (scratch_ne ht))
      fun m m' hm hsets => ?_
    rw [hsets.value, hm]
  · intro held a b s₂ hops ha
    have hset : SetsTo ext _ [a, treg] treg _ := setsTo_op op treg a b
    refine hops.finish (.of_eq hset.straight (List.append_assoc _ _ _) rfl rfl rfl rfl) rfl rfl
      rfl fun k v w => ?_
    refine does_sets hset ?_ ?_ fun m m' hm hsets => ?_
    · intro q hq
      simp only [List.mem_cons, List.not_mem_nil, or_false] at hq
      rcases hq with rfl | rfl
      · exact hops.left.2 _ _ (.of_eq (List.append_assoc _ _ _) rfl rfl rfl rfl)
      · exact not_kept_target ht
    · intro hmem
      simp only [List.mem_cons, List.not_mem_nil, or_false] at hmem
      rcases hmem with h | h
      · exact hops.left.1 h.symm
      · exact scratch_ne ht h.symm
    · rw [hsets.value, hm.1, hm.2]

end Operators

/-! ## Elements of arrays -/

section Index

variable {σ : Type} {W : World σ} {ext : Reg → Machine → σ → Option (Machine × σ)} {L : Layout}
  {c : CUPState} {rec : GenExpr} {treg : X64Reg} {s : GenState} {l l' rest : List Node}
  {e e' : Expr}

/-- The load behind an address that was computed into the target. -/
def loadBytes (want : Bool) (treg : X64Reg) : Bytes := if want then emitLoad treg treg 0 else []

theorem emit_loadBytes (want : Bool) :
    (if want then emit (emitLoad treg treg 0) else pure ()) = emit (loadBytes want treg) :=
  emit_ite _

/-- The addition of an index that is a number. -/
def offsetBytes (treg : X64Reg) (imm : Nat) : Bytes :=
  if imm ≠ 0 then emitAluImm 0 treg (imm * 8) else []

theorem setsTo_offset {imm : Nat} (h : imm ≤ int32Max / 8) :
    SetsTo ext (offsetBytes treg imm) [treg] treg
      fun m => m.regs treg + BitVec.ofNat 64 imm * 8 := by
  have hmul : BitVec.ofNat 64 (imm * 8) = BitVec.ofNat 64 imm * 8 := BitVec.ofNat_mul _ _
  unfold offsetBytes
  split
  · have h8 : imm * 8 ≤ int32Max := by
      unfold int32Max at h ⊢
      omega
    have hset : SetsTo ext (emitAluImm 0 treg (imm * 8)) [treg] treg
        fun m => m.regs treg + BitVec.ofNat 64 (imm * 8) := setsTo_aluImm rfl h8 fun _ _ => rfl
    exact hset.congr fun m => by rw [hmul]
  · obtain rfl : imm = 0 := not_not.mp ‹_›
    exact setsTo_nil fun m => (BitVec.add_zero _).symm

theorem straight_load (want : Bool) (treg : X64Reg) : Straight (loadBytes want treg) := by
  cases want with
  | false => exact .nil
  | true => exact .of_code (code_load int32_zero) rfl

/-- What is at the address that code leaves in the target, or the address. -/
theorem does_address {keep : Reg → Prop} {K k : Nat} {bytes : Bytes} {rs : List Reg}
    {pre : Machine → Prop} {g : Machine → Word} {p : Word} {want : Bool}
    (hs : SetsTo ext bytes rs treg g) (hkeep : ∀ q ∈ rs, ¬ keep q) (hsp : .rsp ∉ rs)
    (hkeep' : ¬ keep treg) (hsp' : treg ≠ .rsp) (hg : ∀ m, pre m → g m = p) :
    Does W.stack ext keep K k k (bytes ++ loadBytes want treg) pre
      (if want then W.stack.read p else pure p) fun u m => m.regs treg = u := by
  cases want with
  | false =>
    rw [loadBytes, if_neg (by decide), if_neg (by decide), List.append_nil]
    exact does_sets hs hkeep hsp fun m m' hm hsets => hsets.value.trans (hg m hm)
  | true =>
    have hload : Does W.stack ext keep K k k (emitLoad treg treg 0) (fun m => m.regs treg = p)
        (W.stack.read p) fun u m => m.regs treg = u :=
      does_read (setsTo_load treg treg) (fun q hq => List.mem_singleton.mp hq ▸ hkeep')
        (rsp_not_target hsp') (fun m hm => by rw [hm]) fun _ _ _ _ hsets => hsets.value
    exact hload.sets_then hs hkeep hsp fun m m' hm hsets => hsets.value.trans (hg m hm)

theorem subscriptCase_computes (want : Bool) (hl : Subtree W ext L c rec l e)
    (hr : Subtree W ext L c rec l' e') (ht : treg.calleeSaved = false)
    (hc : SameTables c s.cup) (hs : s.range = l ++ (l' ++ rest)) :
    (subscriptCase rec treg want).Sat s
      (fun _ s' => Evaluates W ext (max (W.words e) (W.words e'))
        (W.eval true e >>= fun p => W.eval true e' >>= fun k =>
          if want then W.stack.read (p + k * 8) else pure (p + k * 8)) treg rest s s')
      GivesUp := by
  have hsp := scratch_ne ht
  unfold subscriptCase
  refine sat_then (hl.single ht hc hs) fun _ s₁ h₁ => ?_
  have hc₁ : SameTables c s₁.cup := h₁.code.elim fun _ h => h.1.tables hc
  -- the address, of operands in two registers
  have hdone : ∀ {held a b : X64Reg} {s₂ : GenState} {need : Nat},
      Operands W ext need (W.eval true e) (W.eval true e') treg held a b rest s s₂ →
      need ≤ max (W.words e) (W.words e') →
      (emit (emitLeaIdx8 treg a b) >>= fun _ => regFree held >>= fun _ =>
        emit (loadBytes want treg)).Sat s₂
        (fun _ s' => Evaluates W ext (max (W.words e) (W.words e'))
          (W.eval true e >>= fun p => W.eval true e' >>= fun k =>
            if want then W.stack.read (p + k * 8) else pure (p + k * 8)) treg rest s s')
        GivesUp := by
    intro held a b s₂ need hops hneed
    have hset : SetsTo ext _ [treg] treg _ := setsTo_leaIdx8 treg a hops.right
    refine Evaluates.of_need (hops.finish (.of_eq (hset.straight.append (straight_load want treg))
      (List.append_assoc _ _ _) rfl rfl rfl rfl) rfl rfl rfl fun k v w => ?_) hneed
    exact does_address hset (target_not_kept ht) (rsp_not_target hsp) (not_kept_target ht) hsp
      fun m hm => by rw [hm.1, hm.2]
  rw [Run.sat_bind, Run.sat_get, h₁.range]
  dsimp only
  cases hi : (isSmallImm (l' ++ rest)).filter (· ≤ int32Max / 8) with
  | some imm =>
    obtain ⟨himm, hle⟩ := Option.filter_eq_some_iff.mp hi
    obtain ⟨rfl, hlen⟩ := hr.reads.smallImm himm
    have hdrop : s₁.range.drop 2 = rest := by rw [h₁.range, ← hlen, List.drop_left]
    have heval : ∀ w (q : Word → Meaning σ Word), (W.eval true (.const w) >>= q) = q w :=
      fun w q => by rw [World.eval, Run.pure_bind']
    dsimp only
    rw [Run.sat_bind, skipNodes, Run.sat_modify, hdrop, ite_emit_bind, emit_loadBytes]
    simp only [heval]
    have hset : SetsTo ext _ [treg] treg _ := setsTo_offset (of_decide_eq_true hle)
    refine Evaluates.of_need (h₁.next (.of_eq (hset.straight.append (straight_load want treg))
      (List.append_assoc _ _ _) rfl rfl rfl rfl) rfl rfl fun k v => ?_) (Nat.le_max_left _ _)
    exact does_address hset (target_not_kept ht) (rsp_not_target hsp) (not_kept_target ht) hsp
      fun m hm => by rw [hm]
  | none =>
    simp only [emit_loadBytes]
    split
    · rename_i hleaf
      rw [hr.reads.leafSize, Ne, ite_eq_right_iff, Classical.not_imp] at hleaf
      exact h₁.leafOperand hr hleaf.1 ht hc₁ fun r s₂ h => hdone h (Nat.le_max_left _ _)
    · exact h₁.treeOperand hr ht hc₁ fun r s₂ h => hdone h (Nat.le_refl _)

end Index

/-! ## Assignments -/

section Assignments

variable {σ : Type} {W : World σ} {ext : Reg → Machine → σ → Option (Machine × σ)} {L : Layout}
  {c : CUPState} {rec : GenExpr} {treg : X64Reg} {s : GenState} {l l' rest : List Node}
  {e e' : Expr}

theorem straight_store (a b : X64Reg) : Straight (emitStore a 0 b) :=
  .of_code (code_store int32_zero) rfl

theorem straight_movRr (a b : X64Reg) : Straight (emitMovRr a b) :=
  have hset : SetsTo (fun _ _ _ => none : Reg → Machine → Unit → Option (Machine × Unit))
    (emitMovRr a b) [a] a _ := setsTo_movRr a b
  hset.straight

/-- A word is stored at the address in `a`. -/
theorem does_store {keep : Reg → Prop} {K k : Nat} {a b : X64Reg} {p w : Word} :
    Does W.stack ext keep K k k (emitStore a 0 b) (fun m => m.regs a = p ∧ m.regs b = w)
      (W.stack.write p w) fun _ m => m.regs b = w := by
  refine does_write (code_store int32_zero) (fun m hm => ⟨_, rfl, rfl, ?_⟩) fun m m' hm hregs _ => ?_
  · change m.mem.store (m.addr a 0) (m.regs b) = m.mem.store p w
    rw [Machine.addr_zero, hm.1, hm.2]
  · rw [hregs]
    exact hm.2

/-- It is moved to the target behind that. -/
theorem does_assign {keep : Reg → Prop} {K k : Nat} {a b : X64Reg} {p w : Word}
    (hkeep : ¬ keep treg) (hsp : treg ≠ .rsp) :
    Does W.stack ext keep K k k (emitStore a 0 b ++ emitMovRr treg b)
      (fun m => m.regs a = p ∧ m.regs b = w) (W.stack.write p w >>= fun _ => pure w)
      fun u m => m.regs treg = u :=
  does_store.bind fun _ => does_sets (setsTo_movRr treg b)
    (fun _ hq => List.mem_singleton.mp hq ▸ hkeep) (rsp_not_target hsp)
    fun _ _ hm hsets => hsets.value.trans hm

/-- A word is added to the one at the address in `a`, and the sum loaded. -/
theorem does_addAssign {keep : Reg → Prop} {K k : Nat} {a b : X64Reg} {p w : Word}
    (hkeep : ¬ keep treg) (hsp : treg ≠ .rsp) :
    Does W.stack ext keep K k k (emitAddMemReg a 0 b ++ emitLoad treg a 0)
      (fun m => m.regs a = p ∧ m.regs b = w)
      (W.stack.read p >>= fun old => W.stack.write p (old + w) >>= fun _ => pure (old + w))
      fun u m => m.regs treg = u := by
  intro m M x v M' x' hm hp hf
  obtain ⟨old, s₁, hread, hf⟩ := Run.bind_eq_ok.mp hf
  obtain ⟨hmiss, rfl, rfl⟩ := Stack.read_inv hread
  obtain ⟨_, s₂, hwrite, hf⟩ := Run.bind_eq_ok.mp hf
  obtain ⟨-, rfl⟩ := Stack.write_inv hwrite
  cases hf
  have hadd : (Instr.addMem a 0 b).step m = some { m with
      mem := m.mem.store p (M.load p + w), flags := none } := by
    rw [Instr.step, Machine.addr_zero, hp.1, hp.2, hm.agree.load hmiss]
  have hset : SetsTo ext (emitLoad treg a 0) [treg] treg _ := setsTo_load treg a
  obtain ⟨m₂, hload, hsets⟩ :=
    hset.sets { m with mem := m.mem.store p (M.load p + w), flags := none } x
  have hvalue : m₂.regs treg = M.load p + w := by
    rw [hsets.value]
    change (m.mem.store p (M.load p + w)).load (m.regs a) = _
    rw [hp.1, Mem.load_store]
  have hothers : ∀ q, q ≠ treg → m₂.regs q = m.regs q := fun q hq =>
    hsets.others q fun hmem => hq (List.mem_singleton.mp hmem)
  have hmem : m₂.mem = m.mem.store p (M.load p + w) := hsets.mem
  refine ⟨m₂, (Through.of_step (code_addMemReg int32_zero) hadd).append hload, ⟨?_, ?_⟩, ?_, ?_,
    hvalue⟩
  · rw [hothers _ hsp.symm, hm.top]
  · rw [hmem]
    exact hm.agree.store
  · rw [hmem]
    exact hmiss.keeps
  · exact fun r hr => hothers r fun he => hkeep (he ▸ hr)

/-- The store to an address, from `rax` or by way of a scratch register. -/
theorem storeLeaf_sat {f : Meaning σ Word} {need addr : Nat} {s₁ : GenState}
    (h₁ : Evaluates W ext need f treg rest s s₁) {q : Gen Unit} {Q : Unit → GenState → Prop}
    (hq : ∀ s', Evaluates W ext need (f >>= fun w => W.stack.write (BitVec.ofNat 64 addr) w >>=
      fun _ => pure w) treg rest s s' → q.Sat s' Q GivesUp) :
    (if treg = .rax then emit (emitStoreRaxAbs addr) >>= fun _ => q else
      pickScratch treg >>= fun a => emit (emitMovImm64 a addr) >>= fun _ =>
        emit (emitStore a 0 treg) >>= fun _ => regFree a >>= fun _ => q).Sat s₁ Q GivesUp := by
  split
  · rename_i hrax
    rw [Run.sat_bind, emit, Run.sat_modify]
    refine hq _ (h₁.next (.of_eq (.of_code (code_storeRaxAbs addr) rfl) rfl rfl rfl rfl rfl)
      h₁.range rfl fun k w => ?_)
    refine Does.map (does_write (code_storeRaxAbs addr) (fun m hm => ⟨_, rfl, rfl, ?_⟩)
      fun m m' hm hregs _ => ?_)
    · change m.mem.store _ (m.regs .rax) = _
      rw [← hrax, hm]
    · rw [hregs]
      exact hm
  · refine sat_then (pickScratch_sat treg s₁) ?_
    rintro r _ ⟨rfl, hne, hr, hfree⟩
    rw [Run.sat_bind, emit, Run.sat_modify, Run.sat_bind, emit, Run.sat_modify, Run.sat_bind,
      regFree, Run.sat_modify]
    have hfn : ∀ buf, (freed { taken s₁ r with buf := buf } r).fn = s₁.fn := fun buf => by
      change ({ s₁.fn with busy := (s₁.fn.busy ||| regBit r) &&& ~~~ regBit r } : FnState) = s₁.fn
      rw [busy_free hfree]
    have hset : SetsTo ext (emitMovImm64 r addr) [r] r _ := setsTo_movImm64 r addr
    refine hq _ (h₁.next (.of_eq (hset.straight.append (straight_store r treg))
      (List.append_assoc _ _ _) rfl rfl rfl rfl) h₁.range (hfn _) fun k w => ?_)
    refine Does.sets_then hset does_store.map (fun q hq => ?_)
      (rsp_not_target (scratch_ne hr)) fun m m' hm hsets => ⟨hsets.value, ?_⟩
    · rw [List.mem_singleton.mp hq]
      exact not_kept_free hr (h₁.busy ▸ hfree)
    · exact (hsets.others _ fun hmem => hne (List.mem_singleton.mp hmem).symm).trans hm

theorem assignTree_computes (hl : Subtree W ext L c rec l e) (hr : Subtree W ext L c rec l' e')
    (ht : treg.calleeSaved = false) (hc : SameTables c s.cup) (hs : s.range = l ++ (l' ++ rest)) :
    (assignTree rec treg).Sat s
      (fun _ s' => Evaluates W ext (max (W.words e) (W.words e'))
        (W.eval false e >>= fun p => W.eval true e' >>= fun w => W.stack.write p w >>= fun _ =>
          pure w) treg rest s s') GivesUp := by
  have hsp := scratch_ne ht
  unfold assignTree
  rw [Run.sat_bind, Run.sat_get]
  refine sat_then (hl.single ht hc hs) fun _ s₁ h₁ => ?_
  have hc₁ : SameTables c s₁.cup := h₁.code.elim fun _ h => h.1.tables hc
  rw [Run.sat_bind, Run.sat_get, h₁.range]
  dsimp only
  split
  · rename_i hleaf
    rw [hr.reads.leafSize, Ne, ite_eq_right_iff, Classical.not_imp] at hleaf
    refine h₁.leafOperand hr hleaf.1 ht hc₁ fun r s₂ h => ?_
    exact (h.of_need (Nat.le_max_left _ _)).finish (.of_eq ((straight_store treg r).append
      (straight_movRr treg r)) (List.append_assoc _ _ _) rfl rfl rfl rfl) rfl rfl rfl
      fun k v w => does_assign (not_kept_target ht) hsp
  · refine h₁.treeOperand hr ht hc₁ fun r s₂ h => ?_
    exact h.finish (.of_eq (straight_store r treg) rfl rfl rfl rfl rfl) rfl rfl rfl
      fun k v w => does_store.map

/-- Work that starts behind nodes that were skipped. -/
theorem Works.of_start {calm : Prop} {α : Type} {need : Nat} {pre : Machine → Prop}
    {f : Meaning σ α} {post : α → Machine → Prop} {s₀ s' : GenState}
    (h : Works W ext calm treg need pre f post rest s₀ s') (hem : Emits s s₀ [])
    (hfn : s₀.fn = s.fn) : Works W ext calm treg need pre f post rest s s' := by
  have hdepth : Deeper 0 s s₀ := .of_eq (by rw [hfn])
  obtain ⟨bytes, hem', hcode⟩ := h.code
  refine ⟨h.range, by rw [h.busy, hfn], hdepth.trans h.depth rfl, bytes, hem.trans hem',
    fun k hk hsize hal => ?_⟩
  rw [← hfn] at hal
  exact (hcode k hk hsize hal).of_keep fun r hr => hr.right fun q hq => by rwa [hfn]

theorem Evaluates.of_start {need : Nat} {f : Meaning σ Word} {s₀ s' : GenState}
    (h : Evaluates W ext need f treg rest s₀ s') (hem : Emits s s₀ []) (hfn : s₀.fn = s.fn) :
    Evaluates W ext need f treg rest s s' :=
  ⟨h.toWorks.of_start hem hfn, hem.length_le.trans_lt h.grows⟩

theorem assignLeaf_computes {a : Word} {addr : Nat} {loc : Loc} {more : List Node}
    (ha : a = BitVec.ofNat 64 addr) (hl : l = .tok loc :: more)
    (hlen : l.length = if loc.token = .tThis then 1 else 2) (hr : Subtree W ext L c rec l' e')
    (ht : treg.calleeSaved = false) (hc : SameTables c s.cup) (hs : s.range = l ++ (l' ++ rest)) :
    (assignLeaf rec treg addr).Sat s
      (fun _ s' => Evaluates W ext (max (W.words (.place a)) (W.words e'))
        (W.eval false (.place a) >>= fun p => W.eval true e' >>= fun w =>
          W.stack.write p w >>= fun _ => pure w) treg rest s s') GivesUp := by
  have heval : ∀ q : Word → Meaning σ Word, (W.eval false (.place a) >>= q) = q a := fun q => by
    rw [World.eval, if_neg (by decide), Run.pure_bind']
  have hsize : (if s.range.head?.bind Node.token? = some .tThis then 1 else 2) = l.length := by
    rw [hlen, hs, hl]
    simp [Node.token?]
  unfold assignLeaf
  rw [Run.sat_bind, Run.sat_get]
  dsimp only
  rw [hsize, Run.sat_bind, skipNodes, Run.sat_modify, Run.sat_bind, Run.sat_get]
  have hdrop : s.range.drop l.length = l' ++ rest := by rw [hs, List.drop_left]
  simp only [heval]
  refine sat_then (hr.single ht (s := { s with range := s.range.drop l.length }) hc hdrop)
    fun _ s₁ h₁ => ?_
  refine storeLeaf_sat h₁ fun s' h' => ?_
  have hwork := (h'.of_start (.of_eq .nil (List.append_nil _).symm rfl rfl rfl rfl) rfl).of_need
    (Nat.le_max_right (W.words (.place a)) _)
  subst ha
  obtain ⟨bytes, hem, hcode⟩ := hwork.code
  exact ⟨⟨hwork.range, hwork.busy, ⟨hwork.depth.depth, hwork.depth.bound⟩, bytes,
    ⟨⟨hem.buf, hem.used, hem.cup, hem.returns, hem.reallocs⟩, hem.straight⟩, hcode⟩, hwork.grows⟩

theorem assignCase_computes (hl : Subtree W ext L c rec l e) (hr : Subtree W ext L c rec l' e')
    (ht : treg.calleeSaved = false) (hc : SameTables c s.cup) (hs : s.range = l ++ (l' ++ rest)) :
    (assignCase L rec treg).Sat s
      (fun _ s' => Evaluates W ext (max (W.words e) (W.words e'))
        (W.eval false e >>= fun p => W.eval true e' >>= fun w => W.stack.write p w >>= fun _ =>
          pure w) treg rest s s') GivesUp := by
  unfold assignCase
  by_cases hplace : ∃ a, e = .place a
  · obtain ⟨a, rfl⟩ := hplace
    obtain ⟨loc, more, addr, var, tr, hcons, -, hlen, ha, haddr⟩ := hl.reads.place hc hs
    rw [Run.sat_bind, Run.sat_of_ok haddr]
    have hstart : SameTables c { s.cup with trace := tr } := by
      obtain ⟨t, ht⟩ := hc
      exact ⟨tr, by rw [ht]⟩
    refine Run.sat_mono (assignLeaf_computes (s := { s with cup := { s.cup with trace := tr } })
      ha hcons hlen hr ht hstart hs) (fun _ s' h => ?_) fun _ _ h => h
    exact h.of_start ⟨⟨(List.append_nil _).symm, fun _ h => h, ⟨tr, rfl⟩, rfl, rfl⟩, .nil⟩ rfl
  · obtain ⟨loc, more, rfl, h₁, h₂, h₃⟩ := hl.reads.not_place fun a ha => hplace ⟨a, ha⟩
    rw [Run.sat_bind, Run.sat_of_ok (leafAddress_none hs h₁ h₂ h₃)]
    exact assignTree_computes hl hr ht hc hs

theorem addAssignCase_computes (hl : Subtree W ext L c rec l e) (hr : Subtree W ext L c rec l' e')
    (ht : treg.calleeSaved = false) (hc : SameTables c s.cup) (hs : s.range = l ++ (l' ++ rest)) :
    (addAssignCase rec treg).Sat s
      (fun _ s' => Evaluates W ext (max (W.words e) (W.words e'))
        (W.eval false e >>= fun p => W.eval true e' >>= fun w => W.stack.read p >>= fun old =>
          W.stack.write p (old + w) >>= fun _ => pure (old + w)) treg rest s s') GivesUp := by
  have hsp := scratch_ne ht
  have hadd : ∀ a b, Straight (emitAddMemReg a 0 b ++ emitLoad treg a 0) := fun a b =>
    .append (.of_code (code_addMemReg int32_zero) rfl) (.of_code (code_load int32_zero) rfl)
  unfold addAssignCase
  rw [Run.sat_bind, Run.sat_get]
  refine sat_then (hl.single ht hc hs) fun _ s₁ h₁ => ?_
  have hc₁ : SameTables c s₁.cup := h₁.code.elim fun _ h => h.1.tables hc
  rw [Run.sat_bind, Run.sat_get, h₁.range]
  dsimp only
  split
  · rename_i hleaf
    rw [hr.reads.leafSize, Ne, ite_eq_right_iff, Classical.not_imp] at hleaf
    refine h₁.leafOperand hr hleaf.1 ht hc₁ fun r s₂ h => ?_
    exact (h.of_need (Nat.le_max_left _ _)).finish
      (.of_eq (hadd treg r) (List.append_assoc _ _ _) rfl rfl rfl rfl) rfl rfl rfl fun k v w =>
      does_addAssign (not_kept_target ht) hsp
  · refine h₁.treeOperand hr ht hc₁ fun r s₂ h => ?_
    exact h.finish (.of_eq (hadd r treg) (List.append_assoc _ _ _) rfl rfl rfl rfl) rfl rfl rfl
      fun k v w => does_addAssign (not_kept_target ht) hsp

end Assignments

/-! ## Array literals -/

section Literals

variable {σ : Type} {W : World σ} {ext : Reg → Machine → σ → Option (Machine × σ)} {L : Layout}
  {c : CUPState} {rec : GenExpr} {treg p : X64Reg} {s s₁ s₂ : GenState} {rest more : List Node}
  {d : Word}

/-- A piece of work and the next one. -/
theorem Works.seq {calm : Prop} {α β : Type} {need : Nat} {pre mid : Machine → Prop}
    {f : Meaning σ α} {g : Meaning σ β} {post : β → Machine → Prop}
    (h : Works W ext calm treg need pre f (fun _ m => mid m) more s s₁)
    (h' : Works W ext calm treg need mid g post rest s₁ s₂) :
    Works W ext calm treg need pre (f >>= fun _ => g) post rest s s₂ := by
  obtain ⟨bytes, hem, hcode⟩ := h.code
  obtain ⟨bytes', hem', hcode'⟩ := h'.code
  refine ⟨h'.range, h'.busy.trans h.busy, h.depth.trans h'.depth rfl, _, hem.trans hem',
    fun k hk hsize hal => ?_⟩
  have hleft : Does W.stack ext (Kept calm treg s s₂) k k k bytes pre f fun _ m => mid m :=
    (hcode k hk hsize hal).of_keep fun _ hr => hr.left hem'.toAppended
  have hright : Does W.stack ext (Kept calm treg s s₂) k k k bytes' mid g post :=
    (hcode' k hk hsize (h.depth.aligned hal)).of_keep fun _ hr =>
      hr.right fun q hq => by rwa [h.busy]
  exact hleft.bind fun _ => hright

/-- The displacement of an element. -/
theorem element_addr {m : Machine} {i : Nat} (hp : m.regs p = d) (hi : 8 * i < 2 ^ 31) :
    m.addr p (toInt32 (i * 8)) = d + BitVec.ofNat 64 (8 * i) := by
  have hdisp : toInt32 (i * 8) = ((8 * i : Nat) : Int) := by
    unfold toInt32
    rw [Int.bmod_def]
    omega
  rw [Machine.addr, hp, hdisp, BitVec.ofInt_natCast]

/-- One element: a number in the instruction, or a value in a scratch register. -/
theorem storeElement_sat {l : List Node} {e : Expr} {i : Nat} (treg : X64Reg) (d : Word) (need : Nat)
    (hsub : Subtree W ext L c rec l e) (hp : p ∈ poolSaved) (hheld : hasReg s.fn.busy p = true)
    (hneed : W.words e ≤ need) (hi : 8 * i < 2 ^ 31) (hc : SameTables c s.cup)
    (hs : s.range = l ++ more) {q : Gen Unit} {Q : Unit → GenState → Prop}
    (hq : ∀ s', Works W ext W.Calm treg need (fun m => m.regs p = d)
      (W.eval true e >>= fun x => W.stack.write (d + BitVec.ofNat 64 (8 * i)) x)
      (fun _ m => m.regs p = d) more s s' → q.Sat s' Q GivesUp) :
    (Run.get >>= fun s' => (isSmallImm s'.range).elim
      (pickScratch p >>= fun r => single rec r (some r) >>= fun _ =>
        emit (emitStore p (toInt32 (i * 8)) r) >>= fun _ => regFree r >>= fun _ => q)
      fun imm => skipNodes 2 >>= fun _ =>
        emit (emitStoreImm32 p (toInt32 (i * 8)) imm) >>= fun _ => q).Sat s Q GivesUp := by
  obtain ⟨hsaved, hpsp, -⟩ := saved_of_mem hp
  rw [Run.sat_bind, Run.sat_get, hs]
  cases himm : isSmallImm (l ++ more) with
  | some imm =>
    obtain ⟨rfl, hlen⟩ := hsub.reads.smallImm himm
    have hdrop : s.range.drop 2 = more := by rw [hs, ← hlen, List.drop_left]
    rw [Option.elim_some, Run.sat_bind, skipNodes, Run.sat_modify, Run.sat_bind, emit,
      Run.sat_modify]
    have hcode : Code (emitStoreImm32 p (toInt32 (i * 8)) imm)
        [.storeImm p (toInt32 (i * 8)) imm] :=
      code_storeImm32 (int32_toInt32 (i * 8)) (int32_of_le (isSmallImm_le himm))
    refine hq _ ⟨hdrop, rfl, .of_eq rfl, _, .of_eq (.of_code hcode rfl) rfl rfl rfl rfl rfl,
      fun k _ _ _ => ?_⟩
    rw [World.eval, Run.pure_bind']
    refine does_write hcode (fun m hm => ⟨_, rfl, rfl, ?_⟩) fun m m' hm hregs _ => ?_
    · dsimp only
      rw [element_addr hm hi, BitVec.ofInt_natCast]
    · rw [hregs]
      exact hm
  | none =>
    refine sat_then (pickScratch_sat p s) ?_
    rintro r _ ⟨rfl, hne, hr, hfree⟩
    refine sat_then (hsub.single hr (s := taken s r) hc hs) fun _ s₁ h₁ => ?_
    obtain ⟨bytes, hem, hcode⟩ := h₁.code
    rw [Run.sat_bind, emit, Run.sat_modify, Run.sat_bind, regFree, Run.sat_modify]
    have hstore : Emits s₁ (freed { s₁ with buf := s₁.buf ++ emitStore p (toInt32 (i * 8)) r } r)
        (emitStore p (toInt32 (i * 8)) r) :=
      .of_eq (.of_code (code_store (int32_toInt32 _)) rfl) rfl rfl rfl rfl rfl
    have hstart : Emits s (taken s r) [] := .of_eq .nil (List.append_nil _).symm rfl rfl rfl rfl
    refine hq _ ⟨h₁.range, ?_, ⟨h₁.depth.depth, h₁.depth.bound⟩, _,
      (hstart.trans hem).trans hstore, fun k hk hsize hal => ?_⟩
    · change s₁.fn.busy &&& ~~~ regBit r = s.fn.busy
      rw [h₁.busy]
      exact busy_free hfree
    · have hkeep : Kept W.Calm r (taken s r) s₁ p :=
        ⟨hpsp, .inl ⟨hsaved, .inr (.inl (hasReg_or.mpr (.inl hheld)))⟩⟩
      have hvalue := (hcode k (by omega) hsize hal).frame hkeep d
      have hvalue' : Does W.stack ext (Kept W.Calm treg s
          (freed { s₁ with buf := s₁.buf ++ emitStore p (toInt32 (i * 8)) r } r)) k k k bytes
          (fun m => True ∧ m.regs p = d) (W.eval true e)
          fun v m => m.regs r = v ∧ m.regs p = d :=
        hvalue.of_keep fun _ hk => ((hk.left hstore.toAppended).retarget hfree).right fun q hq =>
          hasReg_or.mpr (.inl hq)
      rw [List.nil_append]
      refine (hvalue'.of_pre fun m hm => ⟨trivial, hm⟩).bind fun v => ?_
      refine does_write (code_store (int32_toInt32 _)) (fun m hm => ⟨_, rfl, rfl, ?_⟩)
        fun m m' hm hregs _ => ?_
      · dsimp only
        rw [element_addr hm.2 hi, hm.1]
      · rw [hregs]
        exact hm.2

theorem storeElements_succ (i k : Nat) : storeElements rec p i (k + 1) =
    Run.get >>= fun s' => (isSmallImm s'.range).elim
      (pickScratch p >>= fun r => single rec r (some r) >>= fun _ =>
        emit (emitStore p (toInt32 (i * 8)) r) >>= fun _ => regFree r >>= fun _ =>
          storeElements rec p (i + 1) k)
      fun imm => skipNodes 2 >>= fun _ =>
        emit (emitStoreImm32 p (toInt32 (i * 8)) imm) >>= fun _ => storeElements rec p (i + 1) k := by
  funext s
  rw [storeElements, Run.get_bind, Run.get_bind]
  cases isSmallImm s.range <;> rfl

/-- The elements are stored one behind the other. -/
theorem storeElements_works {ps : List (List Node × Expr)} {i need : Nat} (treg : X64Reg) (d : Word)
    (hsub : ∀ q ∈ ps, Subtree W ext L c rec q.1 q.2) (hp : p ∈ poolSaved)
    (hheld : hasReg s.fn.busy p = true) (hneed : W.wordsAll (ps.map Prod.snd) ≤ need)
    (hi : 8 * (i + ps.length) ≤ 2 ^ 31) (hc : SameTables c s.cup)
    (hs : s.range = ps.flatMap Prod.fst ++ rest) :
    (storeElements rec p i ps.length).Sat s
      (fun _ s' => Works W ext W.Calm treg need (fun m => m.regs p = d)
        (W.storeAll d i (ps.map Prod.snd)) (fun _ m => m.regs p = d) rest s s') GivesUp := by
  induction ps generalizing s i with
  | nil =>
    rw [List.map_nil, World.storeAll]
    exact ⟨hs, rfl, .of_eq rfl, [], .of_eq .nil (List.append_nil _).symm rfl rfl rfl rfl,
      fun _ _ _ _ => does_pure fun _ hm => hm⟩
  | cons q ps ih =>
    rw [List.map_cons, World.wordsAll] at hneed
    rw [List.length_cons] at hi ⊢
    rw [List.flatMap_cons, List.append_assoc] at hs
    rw [storeElements_succ]
    refine storeElement_sat treg d need (hsub q List.mem_cons_self) hp hheld
      (by omega) (by omega) hc hs fun s₁ h₁ => ?_
    refine Run.sat_mono (ih (fun q hq => hsub q (List.mem_cons_of_mem _ hq)) (by rwa [h₁.busy])
      (by omega) (by omega) (h₁.code.elim fun _ h => h.1.tables hc) h₁.range) (fun _ s' h' => ?_)
      fun _ _ h => h
    have hseq := h₁.seq h'
    rw [Run.bind_assoc] at hseq
    rw [List.map_cons, World.storeAll]
    exact hseq

/-- The comma in front of a list, and the number of its trees. -/
theorem sat_comma {α : Type} {loc : Loc} {n : Nat} (hs : s.range = .tok loc :: .value n :: more)
    (hcomma : loc.token = .tComma) {q : Nat → Gen α} {Q : α → GenState → Prop}
    {E : Stop → GenState → Prop} :
    (peekToken >>= fun t => if t ≠ .tComma then genExit 1 else
      skipNodes 1 >>= fun _ => getNodeValue >>= q).Sat s Q E ↔
      (q n).Sat { s with range := more } Q E := by
  have hdrop : s.range.drop 1 = .value n :: more := by rw [hs, List.drop_one, List.tail_cons]
  have hcount : getNodeValue { s with range := .value n :: more } =
      .ok n { s with range := more } := getNodeValue_ok rfl
  rw [Run.sat_bind, Run.sat_of_ok (peekToken_tok hs), if_neg (not_not.mpr hcomma), Run.sat_bind,
    skipNodes, Run.sat_modify, hdrop, Run.sat_bind]
  exact Run.sat_of_ok hcount

/-- `N_ARRAY`, behind its token. -/
theorem literalCase_computes {ps : List (List Node × Expr)} {i : Nat} {loc : Loc}
    (hsub : ∀ q ∈ ps, Subtree W ext L c rec q.1 q.2) (hcomma : loc.token = .tComma)
    (hlen : 8 * ps.length ≤ 2 ^ 31) (ht : treg.calleeSaved = false) (hc : SameTables c s.cup)
    (hs : s.range = .value i :: .tok loc :: .value ps.length :: (ps.flatMap Prod.fst ++ rest)) :
    (literalCase L rec treg).Sat s
      (fun _ s' => Evaluates W ext (W.wordsAll (ps.map Prod.snd))
        (W.storeAll (BitVec.ofNat 64 (L.dataPtr c i)) 0 (ps.map Prod.snd) >>= fun _ =>
          pure (BitVec.ofNat 64 (L.dataPtr c i))) treg rest s s') GivesUp := by
  have hptr : L.dataPtr s.cup i = L.dataPtr c i := by
    obtain ⟨t, ht⟩ := hc
    rw [ht]
    rfl
  unfold literalCase
  rw [Run.sat_bind, Run.sat_of_ok (getNodeValue_ok hs), sat_comma rfl hcomma]
  refine sat_then (pickSaved_sat treg _) ?_
  rintro p _ ⟨rfl, hne, hmem, hfree⟩
  obtain ⟨hsaved, hpsp, hpbp⟩ := saved_of_mem hmem
  rw [Run.sat_bind, Run.sat_get, Run.sat_bind, emit, Run.sat_modify]
  dsimp only
  refine sat_then (storeElements_works treg (BitVec.ofNat 64 (L.dataPtr c i)) hsub hmem
    (hasReg_or.mpr (.inr rfl)) (Nat.le_refl _) (by omega) hc rfl) fun _ s₁ h₁ => ?_
  obtain ⟨bytes, hem, hcode⟩ := h₁.code
  rw [Run.sat_bind, emit, Run.sat_modify, regFree, Run.sat_modify]
  have hfirst : Emits s { takenSaved { s with range := ps.flatMap Prod.fst ++ rest } p with
      buf := s.buf ++ emitMovImm64 p (L.dataPtr s.cup i) } (emitMovImm64 p (L.dataPtr s.cup i)) :=
    ⟨⟨rfl, fun q hq => hasReg_or.mpr (.inl hq), ⟨_, rfl⟩, rfl, rfl⟩,
      .of_code (code_movImm64 p (L.dataPtr s.cup i)) rfl⟩
  have hlast : Emits s₁ (freed { s₁ with buf := s₁.buf ++ emitMovRr treg p } p)
      (emitMovRr treg p) := .of_eq (straight_movRr treg p) rfl rfl rfl rfl rfl
  have hused : hasReg s₁.fn.csUsed p = true := hem.used p (hasReg_or.mpr (.inr rfl))
  have hnot : ¬ Kept W.Calm treg s (freed { s₁ with buf := s₁.buf ++ emitMovRr treg p } p) p :=
    not_kept_recorded hpbp hfree hused
  have hgrows := hfirst.grows (code_movImm64 p (L.dataPtr s.cup i)).length_pos
  refine ⟨⟨h₁.range, ?_, ⟨h₁.depth.depth, h₁.depth.bound⟩, _, (hfirst.trans hem).trans hlast,
    fun k hk hsize hal => ?_⟩, hgrows.trans_le (hem.trans hlast).length_le⟩
  · change s₁.fn.busy &&& ~~~ regBit p = s.fn.busy
    rw [h₁.busy]
    exact busy_free hfree
  · have hstore : Does W.stack ext
        (Kept W.Calm treg s (freed { s₁ with buf := s₁.buf ++ emitMovRr treg p } p))
        k k k bytes (fun m => m.regs p = BitVec.ofNat 64 (L.dataPtr c i))
        (W.storeAll (BitVec.ofNat 64 (L.dataPtr c i)) 0 (ps.map Prod.snd))
        fun _ m => m.regs p = BitVec.ofNat 64 (L.dataPtr c i) :=
      (hcode k hk hsize hal).of_keep fun _ hr =>
        (hr.left hlast.toAppended).right fun q hq => hasReg_or.mpr (.inl hq)
    refine Does.bind (hstore.sets_then (setsTo_movImm64 p _) (fun q hq => ?_)
      (rsp_not_target hpsp) fun m m' _ hsets => ?_) fun _ => does_sets (setsTo_movRr treg p)
      (target_not_kept ht) (rsp_not_target (scratch_ne ht)) fun m m' hm hsets =>
        hsets.value.trans hm
    · exact List.mem_singleton.mp hq ▸ hnot
    · exact hsets.value.trans (by rw [hptr])

end Literals

end Cup
