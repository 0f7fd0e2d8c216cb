/-
  What `codegen_expr` appends to the buffer is a list of instructions (`Emitted`): they write no
  register that a function hands back but the ones in `cs_used` and those that the code around
  still holds, they leave as many words on the stack as they found, and their jumps stay among
  them.

  `Gens` says so of the code of the generator, one lemma for each function, and
  `gensTree_codegenExpr` of `codegen_expr`, for streams without a nested function definition.
-/
import Cup.Branching
import Cup.Consumption
import Cup.Lib.X64Stack

namespace Cup

open Lib (Stop Run Res)
open Lib.X64

/-! ## Emitted code -/

/-- A jump of a `return`. -/
def jmpOp (rel : Int) (h : Int32 rel) : Op := ⟨.jmp rel, jmpOpcode ++ emiti32 rel, code_jmp h⟩

/-- The offset `p` in the buffer is the distance of a jump in the code from `start` on. -/
def JumpSite (start : Nat) (ops : List Op) (p : Nat) : Prop :=
  ∃ a rel h b, ops = a ++ jmpOp rel h :: b ∧ p = start + (assemble a).length + 1

/-- A register that code may write which is part of code that holds `held`. -/
def MayWrite (held : List X64Reg) (used : BitVec 16) (r : X64Reg) : Prop :=
  r.calleeSaved = true → r = .rsp ∨ r ∈ held ∨ hasReg used r = true

/-- From `s` to `s'` the instructions `ops` were appended, with the jumps of returns at `rets`.
    In front of them `j` words are on the stack, and behind them `k`. -/
structure Emitted (held : List X64Reg) (j k : Nat) (s s' : GenState) (ops : List Op)
    (rets : List Nat) : Prop where
  buf : s'.buf = s.buf ++ assemble ops
  words : walk j ops = some k
  closed : Closed j ops
  writes : ∀ o ∈ ops, ∀ r, o.instr.dest = some r → MayWrite held s'.fn.csUsed r
  used : ∀ r, hasReg s.fn.csUsed r = true → hasReg s'.fn.csUsed r = true
  returns : s'.returns = s.returns ++ rets
  sites : ∀ p ∈ rets, JumpSite s.buf.length ops p

/-- The nodes that were taken from the stream have no nested function definition. -/
def NoDefinition (s s' : GenState) : Prop :=
  ∀ taken, s.range = taken ++ s'.range → ∀ n ∈ taken, n.token? ≠ some .tAt

/-- Nodes were taken from the stream, and code for them was emitted. -/
structure Grows (held : List X64Reg) (j k : Nat) (s s' : GenState) : Prop where
  suffix : s'.range <:+ s.range
  emitted : NoDefinition s s' → ∃ ops rets, Emitted held j k s s' ops rets

theorem MayWrite.mono {held held' : List X64Reg} {used used' : BitVec 16} {r : X64Reg}
    (h : MayWrite held used r) (hh : ∀ l ∈ held, l ∈ held' ∨ hasReg used' l = true)
    (hu : ∀ l, hasReg used l = true → hasReg used' l = true) : MayWrite held' used' r := by
  intro hr
  rcases h hr with h | h | h
  · exact .inl h
  · exact .inr (hh r h)
  · exact .inr (.inr (hu r h))

theorem JumpSite.append {start p : Nat} {a : List Op} (h : JumpSite start a p) (b : List Op) :
    JumpSite start (a ++ b) p := by
  obtain ⟨pre, rel, hr, post, rfl, rfl⟩ := h
  exact ⟨pre, rel, hr, post ++ b, by simp, rfl⟩

theorem JumpSite.behind {start p : Nat} {a b : List Op}
    (h : JumpSite (start + (assemble a).length) b p) : JumpSite start (a ++ b) p := by
  obtain ⟨pre, rel, hr, post, rfl, rfl⟩ := h
  exact ⟨a ++ pre, rel, hr, post, by simp, by simp [Nat.add_assoc]⟩

section Emitted

variable {held : List X64Reg} {j k l : Nat} {s s' s'' : GenState} {ops ops' : List Op}
  {rets rets' : List Nat}

theorem Emitted.trans (h : Emitted held j k s s' ops rets)
    (h' : Emitted held k l s' s'' ops' rets') :
    Emitted held j l s s'' (ops ++ ops') (rets ++ rets') where
  buf := by rw [h'.buf, h.buf, assemble_append, List.append_assoc]
  words := (walk_append h.words).trans h'.words
  closed := h.closed.append h.words h'.closed
  writes o ho r hr := by
    rcases List.mem_append.mp ho with ho | ho
    · exact (h.writes o ho r hr).mono (fun _ hl => .inl hl) h'.used
    · exact h'.writes o ho r hr
  used r hr := h'.used r (h.used r hr)
  returns := by rw [h'.returns, h.returns, List.append_assoc]
  sites p hp := by
    rcases List.mem_append.mp hp with hp | hp
    · exact (h.sites p hp).append ops'
    · have hsite := h'.sites p hp
      rw [h.buf, List.length_append] at hsite
      exact hsite.behind

/-- Fewer registers are held: the others are recorded. -/
theorem Emitted.release {held' : List X64Reg} (h : Emitted held j k s s' ops rets)
    (hh : ∀ l ∈ held, l ∈ held' ∨ hasReg s.fn.csUsed l = true) :
    Emitted held' j k s s' ops rets where
  buf := h.buf
  words := h.words
  closed := h.closed
  writes o ho r hr :=
    (h.writes o ho r hr).mono (fun l hl => (hh l hl).imp_right (h.used l)) fun _ hu => hu
  used := h.used
  returns := h.returns
  sites := h.sites

/-- Registers were recorded at most. -/
theorem Emitted.of_eq (hb : s'.buf = s.buf)
    (hu : ∀ r, hasReg s.fn.csUsed r = true → hasReg s'.fn.csUsed r = true)
    (hr : s'.returns = s.returns) : Emitted held j j s s' [] [] where
  buf := by rw [hb, assemble_nil, List.append_nil]
  words := rfl
  closed := .nil
  writes _ ho := by cases ho
  used := hu
  returns := by rw [hr, List.append_nil]
  sites _ hp := by cases hp

end Emitted

section Grows

variable {held : List X64Reg} {j k l : Nat} {s s' s'' : GenState}

theorem NoDefinition.left (h : NoDefinition s s'') (hs' : s''.range <:+ s'.range) :
    NoDefinition s s' := by
  intro taken htaken n hn
  obtain ⟨more, hmore⟩ := hs'
  refine h (taken ++ more) ?_ n (List.mem_append_left _ hn)
  rw [htaken, ← hmore, List.append_assoc]

theorem NoDefinition.right (h : NoDefinition s s'') (hs : s'.range <:+ s.range) :
    NoDefinition s' s'' := by
  intro taken htaken n hn
  obtain ⟨more, hmore⟩ := hs
  refine h (more ++ taken) ?_ n (List.mem_append_right _ hn)
  rw [← hmore, htaken, List.append_assoc]

theorem Grows.trans (h : Grows held j k s s') (h' : Grows held k l s' s'') :
    Grows held j l s s'' where
  suffix := h'.suffix.trans h.suffix
  emitted hno := by
    obtain ⟨ops, rets, he⟩ := h.emitted (hno.left h'.suffix)
    obtain ⟨ops', rets', he'⟩ := h'.emitted (hno.right h.suffix)
    exact ⟨_, _, he.trans he'⟩

theorem Grows.release {held' : List X64Reg} (h : Grows held j k s s')
    (hh : ∀ l ∈ held, l ∈ held' ∨ hasReg s.fn.csUsed l = true) : Grows held' j k s s' where
  suffix := h.suffix
  emitted hno := by
    obtain ⟨ops, rets, he⟩ := h.emitted hno
    exact ⟨ops, rets, he.release hh⟩

/-- Nodes were taken, and registers recorded, at most. -/
theorem Grows.of_eq (hs : s'.range <:+ s.range) (hb : s'.buf = s.buf)
    (hu : ∀ r, hasReg s.fn.csUsed r = true → hasReg s'.fn.csUsed r = true) (hr : s'.returns = s.returns) : Grows held j j s s' where
  suffix := hs
  emitted _ := ⟨[], [], .of_eq hb hu hr⟩

/-- One instruction that does not jump was appended. -/
theorem Grows.of_op {o : Op} (hw : o.instr.words j = some k) (hj : o.instr.distance = none)
    (hd : ∀ r, o.instr.dest = some r → MayWrite held s.fn.csUsed r) :
    Grows held j k s { s with buf := s.buf ++ o.bytes } where
  suffix := List.suffix_rfl
  emitted _ := by
    refine ⟨[o], [], ⟨by simp, ?_, .single hj, ?_, fun _ h => h, by simp, fun _ hp => by cases hp⟩⟩
    · rw [walk, hw, Option.bind_some, walk]
    · rintro p hp r hr
      rw [List.mem_singleton.mp hp] at hr
      exact hd r hr

end Grows

/-! ## Code that emits -/

/-- Every run of `x` that returns emits code, and its value is in `Q`. -/
def Gens {α : Type} (held : List X64Reg) (j k : Nat) (x : Gen α) (Q : α → Prop) : Prop :=
  ∀ s, x.Sat s (fun a s' => Grows held j k s s' ∧ Q a) fun _ _ => True

section Gens

variable {α β : Type} {held : List X64Reg} {j k l : Nat} {Q : α → Prop} {R : β → Prop}

theorem Gens.of_ok {x : Gen α} (h : Gens held j k x Q) {s s' : GenState} {a : α}
    (hs : x s = .ok a s') : Grows held j k s s' ∧ Q a :=
  (Run.sat_of_ok hs).mp (h s)

theorem gens_pure {a : α} (h : Q a) : Gens held j j (pure a) Q :=
  fun _ => ⟨.of_eq List.suffix_rfl rfl (fun _ h => h) rfl, h⟩

theorem gens_stop (e : Stop) : Gens held j k (Run.stop e : Gen α) Q := fun _ => trivial

theorem gens_exit (n : Nat) : Gens held j k (genExit n : Gen α) Q := fun _ => trivial

theorem gens_bind {x : Gen α} {f : α → Gen β} (hx : Gens held j k x Q)
    (hf : ∀ a, Q a → Gens held k l (f a) R) : Gens held j l (x >>= f) R := by
  intro s
  rw [Run.sat_bind]
  refine Run.sat_mono (hx s) ?_ fun _ _ h => h
  rintro a s' ⟨hg, ha⟩
  exact Run.sat_mono (hf a ha s') (fun _ _ h => ⟨hg.trans h.1, h.2⟩) fun _ _ h => h

theorem gens_get {f : GenState → Gen β} (hf : ∀ s, Gens held j k (f s) R) :
    Gens held j k (Run.get >>= f) R :=
  fun s => hf s s

theorem gens_lift (x : Except Stop α) : Gens held j j (Run.lift x : Gen α) fun _ => True := by
  intro s
  rw [Run.sat_lift]
  cases x with
  | ok a => exact ⟨.of_eq List.suffix_rfl rfl (fun _ h => h) rfl, trivial⟩
  | error e => trivial

theorem gens_modify {g : GenState → GenState} (h : ∀ s, (g s).range <:+ s.range ∧
    (g s).buf = s.buf ∧ (g s).fn.csUsed = s.fn.csUsed ∧ (g s).returns = s.returns) :
    Gens held j j (Run.modify g) fun _ => True :=
  fun s => ⟨.of_eq (h s).1 (h s).2.1 (fun _ hr => by rwa [(h s).2.2.1]) (h s).2.2.2, trivial⟩

/-- A register that code may write which holds `held`. -/
def Writable (held : List X64Reg) (r : X64Reg) : Prop :=
  r.calleeSaved = false ∨ r ∈ held ∧ r ∈ poolSaved

theorem Writable.mayWrite {r : X64Reg} (h : Writable held r) (used : BitVec 16) :
    MayWrite held used r := by
  intro hr
  rcases h with h | h
  · rw [h] at hr
    cases hr
  · exact .inr (.inl h.1)

theorem Writable.ne {r : X64Reg} (h : Writable held r) : r ≠ .rsp ∧ r ≠ .rbp := by
  have hsp : ¬ Writable held .rsp := by
    rintro (h | ⟨-, h⟩)
    · cases h
    · exact absurd h (by decide)
  have hbp : ¬ Writable held .rbp := by
    rintro (h | ⟨-, h⟩)
    · cases h
    · exact absurd h (by decide)
  exact ⟨fun he => hsp (he ▸ h), fun he => hbp (he ▸ h)⟩

/-- One instruction that neither jumps nor touches the stack. -/
theorem gens_code {bytes : Bytes} {i : Instr} (hc : Code bytes [i]) (hs : i.usesStack = false)
    (hj : i.distance = none) (hd : ∀ r, i.dest = some r → Writable held r) :
    Gens held j j (emit bytes) fun _ => True := by
  intro s
  refine ⟨Grows.of_op (o := ⟨i, bytes, hc⟩) ?_ hj fun r hr => (hd r hr).mayWrite _, trivial⟩
  exact Instr.words_of_dest hs (fun h => (hd _ h).ne.1 rfl) (fun h => (hd _ h).ne.2 rfl) j

/-- One instruction on the stack. -/
theorem gens_op {bytes : Bytes} {i : Instr} (hc : Code bytes [i]) (hw : i.words j = some k)
    (hj : i.distance = none) (hd : ∀ r, i.dest = some r → r ≠ .rsp → Writable held r) :
    Gens held j k (emit bytes) fun _ => True := by
  intro s
  refine ⟨Grows.of_op (o := ⟨i, bytes, hc⟩) hw hj fun r hr => ?_, trivial⟩
  by_cases hsp : r = .rsp
  · exact fun _ => .inl hsp
  · exact (hd r hr hsp).mayWrite _

/-- The depth may be any number: it is no part of the code. -/
theorem gens_depth (f : GenState → Nat) : Gens held j j
    (Run.modify fun s => { s with fn := { s.fn with depth := f s } }) fun _ => True :=
  gens_modify fun _ => ⟨List.suffix_rfl, rfl, rfl, rfl⟩

theorem gens_push (r : X64Reg) : Gens held j (j + 1) (emitPush r) fun _ => True := by
  unfold emitPush
  exact gens_bind (gens_op (code_push r) rfl rfl fun _ h => (by cases h)) fun _ _ => gens_depth _

theorem gens_pop {r : X64Reg} (h : Writable held r) :
    Gens held (j + 1) j (emitPop r) fun _ => True := by
  have hn : ¬ (r = .rsp ∨ r = .rbp ∨ j + 1 = 0) := by
    rintro (he | he | he)
    · exact h.ne.1 he
    · exact h.ne.2 he
    · omega
  have hd : ∀ r', (Instr.pop r).dest = some r' → r' ≠ .rsp → Writable held r' := by
    rintro r' hr' -
    rw [← Option.some.inj hr']
    exact h
  unfold emitPop
  exact gens_bind (gens_op (code_pop r) (if_neg hn) rfl hd) fun _ _ => gens_depth _

/-- An emitter that appends nothing. -/
theorem gens_nil : Gens held j j (emit []) fun _ => True := by
  intro s
  refine ⟨.of_eq List.suffix_rfl ?_ (fun _ h => h) rfl, trivial⟩
  exact List.append_nil _

/-! ## Registers -/

theorem hasReg_or {used : BitVec 16} {l r : X64Reg} :
    hasReg (used ||| regBit l) r = true ↔ hasReg used r = true ∨ l = r := by
  have hl := l.num_lt
  have hr := r.num_lt
  rw [hasReg, hasReg, BitVec.getLsbD_or, Bool.or_eq_true, regBit, BitVec.getLsbD_twoPow]
  refine or_congr_right ⟨fun h => ?_, ?_⟩
  · rw [Bool.and_eq_true, decide_eq_true_eq, decide_eq_true_eq] at h
    exact Reg.num_inj h.2
  · rintro rfl
    simp [hl]

theorem gens_pickScratch (avoid : X64Reg) :
    Gens held j j (pickScratch avoid) fun r => r.calleeSaved = false := by
  intro s
  unfold pickScratch regPick
  rw [Run.sat_bind, Run.sat_get]
  dsimp only
  split
  · exact trivial
  · rename_i r hr
    have hmem := List.mem_of_find?_eq_some hr
    refine ⟨.of_eq List.suffix_rfl rfl (fun _ h => h) rfl, ?_⟩
    revert hmem
    cases r <;> decide

theorem gens_regFree (r : X64Reg) : Gens held j j (regFree r) fun _ => True :=
  gens_modify fun _ => ⟨List.suffix_rfl, rfl, rfl, rfl⟩

/-- Code that holds a saved register: behind it, the register is recorded. -/
theorem gens_saved {avoid : X64Reg} {f : X64Reg → Gen β}
    (hf : ∀ l ∈ poolSaved, Gens (l :: held) j k (f l) R) :
    Gens held j k (pickSaved avoid >>= f) R := by
  intro s
  unfold pickSaved regPick
  rw [Run.sat_bind, Run.sat_bind, Run.sat_bind, Run.sat_get]
  dsimp only
  split
  · exact trivial
  · rename_i l hl
    rw [Run.sat_bind, Run.sat_set, Run.sat_pure, Run.sat_bind, Run.sat_modify, Run.sat_pure]
    refine Run.sat_mono (hf l (List.mem_of_find?_eq_some hl) _) ?_ fun _ _ h => h
    rintro a s' ⟨hg, ha⟩
    refine ⟨?_, ha⟩
    have hrec : Grows held j j s { s with fn :=
        { s.fn with busy := s.fn.busy ||| regBit l, csUsed := s.fn.csUsed ||| regBit l } } :=
      .of_eq List.suffix_rfl rfl (fun _ h => hasReg_or.mpr (.inl h)) rfl
    refine hrec.trans (hg.release fun r hr => ?_)
    rcases List.mem_cons.mp hr with rfl | hr
    · exact .inr (hasReg_or.mpr (.inr rfl))
    · exact .inl hr

end Gens

/-! ## Instructions of the generator -/

section Instructions

variable {held : List X64Reg} {j : Nat}

theorem Writable.dest {r : X64Reg} (h : Writable held r) :
    ∀ r', some r = some r' → Writable held r' := by
  rintro r' hr
  rwa [← Option.some.inj hr]

theorem writable_held {l : X64Reg} (h : l ∈ poolSaved) : Writable (l :: held) l :=
  .inr ⟨List.mem_cons_self, h⟩

theorem gens_movRr {dst src : X64Reg} (h : Writable held dst) :
    Gens held j j (emit (emitMovRr dst src)) fun _ => True := by
  by_cases hne : dst = src
  · rw [emitMovRr, if_neg (not_not.mpr hne)]
    exact gens_nil
  · exact gens_code (code_movRr hne) rfl rfl h.dest

theorem int32_zero : Int32 0 := by unfold Int32; omega

theorem gens_load {dst base : X64Reg} (h : Writable held dst) :
    Gens held j j (emit (emitLoad dst base 0)) fun _ => True :=
  gens_code (code_load int32_zero) rfl rfl h.dest

theorem gens_store {base src : X64Reg} {disp : Int} (hd : Int32 disp) :
    Gens held j j (emit (emitStore base disp src)) fun _ => True :=
  gens_code (code_store hd) rfl rfl fun _ h => by cases h

theorem gens_movImm64 {reg : X64Reg} {imm : Nat} (h : Writable held reg) :
    Gens held j j (emit (emitMovImm64 reg imm)) fun _ => True :=
  gens_code (code_movImm64 reg imm) rfl rfl h.dest

theorem int32_toInt32 (n : Nat) : Int32 (toInt32 n) := by
  have hlt := Int.bmod_lt (x := (n : Int)) (m := 2 ^ 32) (by decide)
  have hle := Int.le_bmod (x := (n : Int)) (m := 2 ^ 32) (by decide)
  unfold Int32 toInt32
  omega

/-- A constant wider than a register is cut to one. -/
theorem code_movConst_any (reg : X64Reg) (imm : Nat) :
    ∃ w, Code (emitMovConst reg imm) [.movImm reg w] := by
  by_cases h : imm < 2 ^ 64
  · exact ⟨_, code_movConst reg h⟩
  · refine ⟨BitVec.ofInt 64 (toInt32 imm), Code.single fun rest => ?_⟩
    unfold emitMovConst
    rw [if_neg (by omega), if_pos (by omega)]
    simp only [List.append_assoc]
    rw [decode_wide (by decide) (by decide)]
    simp [readWide, readModRM_rr, readRM, regOf_bit, num_digit_zero,
      readSigned_emiti32 (int32_toInt32 imm)]

theorem gens_movConst {reg : X64Reg} {imm : Nat} (h : Writable held reg) :
    Gens held j j (emit (emitMovConst reg imm)) fun _ => True := by
  obtain ⟨w, hc⟩ := code_movConst_any reg imm
  exact gens_code hc rfl rfl h.dest

/-- A small immediate operand. -/
theorem int32_of_le {n : Nat} (h : n ≤ int32Max) : Int32 n := by
  unfold int32Max at h
  unfold Int32
  omega

theorem gens_aluImm {ext : Nat} {op : Alu} {reg : X64Reg} {imm : Nat} (hext : aluOf ext = some op)
    (hi : imm ≤ int32Max) (h : Writable held reg) :
    Gens held j j (emit (emitAluImm ext reg imm)) fun _ => True := by
  refine gens_code (code_aluImm (aluOf_lt hext) hext (int32_of_le hi)) rfl rfl fun r hr => ?_
  unfold Instr.dest at hr
  dsimp only at hr
  split at hr
  · cases hr
  · exact h.dest r hr

theorem gens_leaIdx8 {dst base index : X64Reg} (hi : index ≠ .rsp) (h : Writable held dst) :
    Gens held j j (emit (emitLeaIdx8 dst base index)) fun _ => True :=
  gens_code (code_leaIdx8 hi) rfl rfl h.dest

theorem shiftOf_le (imm n sh : Nat) : shiftOf imm n sh ≤ sh + n := by
  induction n generalizing sh with
  | zero => exact Nat.le_refl _
  | succ n ih =>
    unfold shiftOf
    split
    · exact (ih (sh + 1)).trans (by omega)
    · omega

theorem gens_genAluImm (t : CTType) {dst : X64Reg} {imm : Nat} (hi : imm ≤ int32Max)
    (h : Writable held dst) : Gens held j j (genAluImm t dst imm) fun _ => True := by
  unfold genAluImm
  split
  · split
    · exact gens_aluImm rfl hi h
    · exact gens_pure trivial
  · split
    · exact gens_aluImm rfl hi h
    · exact gens_pure trivial
  · split
    · exact gens_pure trivial
    · split
      · have hn : shiftOf imm 31 0 < 256 := (shiftOf_le imm 31 0).trans_lt (by decide)
        exact gens_code (code_shlImm dst hn) rfl rfl h.dest
      · exact gens_code (code_imulImm (int32_of_le hi)) rfl rfl h.dest
  · exact gens_exit _

theorem gens_genAluRr (t : CTType) {dst src : X64Reg} (h : Writable held dst) :
    Gens held j j (genAluRr t dst src) fun _ => True := by
  unfold genAluRr
  split
  · exact gens_code (code_addRr dst src) rfl rfl h.dest
  · exact gens_code (code_subRr dst src) rfl rfl h.dest
  · exact gens_code (code_imulRr dst src) rfl rfl h.dest
  · exact gens_exit _

theorem gens_cmpRr {dst src : X64Reg} : Gens held j j (emit (emitCmpRr dst src)) fun _ => True :=
  gens_code (code_cmpRr dst src) rfl rfl fun _ h => (by cases h)

theorem gens_setccZx {cc : Cond} {reg : X64Reg} (h : Writable held reg) :
    Gens held j j (emit (emitSetccZx cc reg)) fun _ => True := by
  obtain ⟨b, b', he, hb, hb'⟩ := setccZx_split cc reg
  have hsplit : emit (b ++ b') = emit b >>= fun _ => emit b' := by
    funext s
    simp only [emit, Run.modify_bind, Run.modify_apply, List.append_assoc]
  rw [he, hsplit]
  exact gens_bind (gens_code hb rfl rfl h.dest) fun _ _ => gens_code hb' rfl rfl h.dest

end Instructions

/-! ## The stream -/

section Stream

variable {held : List X64Reg} {j : Nat}

theorem gens_skipNodes (n : Nat) : Gens held j j (skipNodes n) fun _ => True :=
  gens_modify fun s => ⟨List.drop_suffix n s.range, rfl, rfl, rfl⟩

theorem gens_getNode : Gens held j j getNode fun _ => True := by
  intro s
  unfold getNode
  rw [Run.sat_bind, Run.sat_get]
  cases hr : s.range with
  | nil => exact trivial
  | cons n rest =>
    refine ⟨.of_eq ?_ rfl (fun _ h => h) rfl, trivial⟩
    rw [hr]
    exact List.suffix_cons n rest

theorem gens_getNodeValue : Gens held j j getNodeValue fun _ => True := by
  unfold getNodeValue
  refine gens_bind gens_getNode fun n _ => ?_
  split
  · exact gens_pure trivial
  · exact gens_stop _

theorem gens_peekToken : Gens held j j peekToken fun _ => True := by
  refine gens_get fun s => ?_
  split
  · exact fun _ => trivial
  · exact gens_pure trivial
  · exact gens_stop _

theorem gens_noteStore (start mid : Nat) : Gens held j j (noteStore start mid) fun _ => True :=
  gens_modify fun _ => ⟨List.suffix_rfl, rfl, rfl, rfl⟩

theorem gens_lookupVar (name : Bytes) : Gens held j j (lookupVar name) fun _ => True := by
  refine gens_get fun s => gens_bind (gens_lift _) fun v _ => ?_
  cases v with
  | none => exact gens_exit _
  | some v => exact gens_pure trivial

theorem gens_leafAddress (L : Layout) : Gens held j j (leafAddress L) fun _ => True := by
  refine gens_get fun s => ?_
  split
  · exact gens_pure trivial
  · split
    · split
      · exact gens_pure trivial
      · exact gens_pure trivial
      · exact gens_stop _
    · split
      · exact gens_pure trivial
      · refine gens_bind (gens_lookupVar _) fun v _ => ?_
        exact gens_bind (gens_modify fun _ => ⟨List.suffix_rfl, rfl, rfl, rfl⟩) fun _ _ =>
          gens_pure trivial
      · exact gens_stop _
    · exact gens_bind (gens_lookupVar _) fun v _ => gens_pure trivial
    · exact gens_pure trivial

theorem gens_expectSingle (count : Nat) : Gens held j j (expectSingle count) fun _ => True := by
  unfold expectSingle
  split
  · exact gens_exit _
  · exact gens_pure trivial

end Stream

/-! ## Leaves -/

/-- The tokens of the leaves with a payload. -/
def payloadLeaf : List CTType := [.tNumber, .tString, .tMstring, .tIdentifier, .nAddress]

theorem leafSize_payload {n m : Node} {rest : List Node} {t : CTType} (ht : n.token? = some t)
    (h : t ∈ payloadLeaf) : leafSize (n :: m :: rest) = 2 := by
  unfold leafSize
  dsimp only
  rw [ht]
  simp only [payloadLeaf, List.mem_cons, List.not_mem_nil, or_false] at h
  rcases h with rfl | rfl | rfl | rfl | rfl <;> rfl

theorem leafSize_this {n : Node} {rest : List Node} (ht : n.token? = some .tThis) :
    leafSize (n :: rest) = 1 := by
  unfold leafSize
  dsimp only
  rw [ht]

/-- What is a leaf: a token with its payload, or `T_THIS`. -/
theorem leafSize_cases {l : List Node} (h : leafSize l ≠ 0) :
    (∃ n m rest t, l = n :: m :: rest ∧ n.token? = some t ∧ t ∈ payloadLeaf) ∨
      ∃ n rest, l = n :: rest ∧ n.token? = some .tThis := by
  cases l with
  | nil => exact absurd rfl h
  | cons n rest =>
    unfold leafSize at h
    dsimp only at h
    have hwide : ∀ {t : CTType}, n.token? = some t → t ∈ payloadLeaf →
        (if 1 ≤ rest.length then 2 else 0) ≠ 0 →
        ∃ n' m rest' t, n :: rest = n' :: m :: rest' ∧ n'.token? = some t ∧ t ∈ payloadLeaf := by
      intro t ht hmem hlen
      cases rest with
      | nil => exact absurd rfl hlen
      | cons m rest => exact ⟨n, m, rest, t, rfl, ht, hmem⟩
    split at h
    · exact .inl (hwide ‹_› (by decide) h)
    · exact .inl (hwide ‹_› (by decide) h)
    · exact .inl (hwide ‹_› (by decide) h)
    · exact .inl (hwide ‹_› (by decide) h)
    · exact .inl (hwide ‹_› (by decide) h)
    · exact .inr ⟨n, rest, rfl, ‹_›⟩
    · exact absurd rfl h

theorem leafSize_take {l : List Node} (h : leafSize l ≠ 0) :
    leafSize (l.take (leafSize l)) ≠ 0 := by
  rcases leafSize_cases h with ⟨n, m, rest, t, rfl, ht, hmem⟩ | ⟨n, rest, rfl, ht⟩
  · rw [leafSize_payload ht hmem]
    change leafSize [n, m] ≠ 0
    rw [leafSize_payload ht hmem]
    decide
  · rw [leafSize_this ht]
    change leafSize [n] ≠ 0
    rw [leafSize_this ht]
    decide
/-! ## Parts of an expression -/

/-- `codegen_expr` emits code, into any register that a function need not hand back. A leaf is
    no definition. -/
structure GensTree (rec : GenExpr) : Prop where
  tree : ∀ (held : List X64Reg) (j : Nat) (treg : X64Reg) (sreg : Option X64Reg),
    treg.calleeSaved = false → Gens held j j (rec treg sreg) fun _ => True
  leaf : ∀ (held : List X64Reg) (j : Nat) (treg : X64Reg) (sreg : Option X64Reg) (s : GenState),
    treg.calleeSaved = false → leafSize s.range ≠ 0 →
      (rec treg sreg).Sat s (fun _ s' => ∃ ops rets, Emitted held j j s s' ops rets)
        fun _ _ => True

section Parts

variable {rec : GenExpr} {held : List X64Reg} {j : Nat} {treg : X64Reg}
  (hrec : GensTree rec) (ht : treg.calleeSaved = false)

include hrec

theorem gens_single {sreg : Option X64Reg} (ht : treg.calleeSaved = false) :
    Gens held j j (single rec treg sreg) fun _ => True :=
  gens_bind (hrec.tree held j treg sreg ht) fun _ _ =>
    gens_bind (gens_expectSingle _) fun _ _ => gens_pure trivial

/-- The nodes of a leaf are generated on their own. -/
theorem genLeaf_grows (held : List X64Reg) (j : Nat) {reg : X64Reg} (leaf : List Node)
    (hr : reg.calleeSaved = false) (s : GenState) :
    (genLeaf rec reg leaf).Sat s (fun _ s' => s'.range = s.range ∧
      ((∀ n ∈ leaf, n.token? ≠ some .tAt) → ∃ ops rets, Emitted held j j s s' ops rets))
      fun _ _ => True := by
  unfold genLeaf
  rw [Run.sat_bind, Run.sat_get, Run.sat_bind, Run.sat_modify, Run.sat_bind]
  refine Run.sat_mono (hrec.tree held j reg (some reg) hr _) ?_ fun _ _ h => h
  rintro a s' ⟨hg, -⟩
  refine ⟨rfl, fun hleaf => ?_⟩
  have hno : NoDefinition { s with range := leaf } s' := fun taken htaken n hn => by
    have htaken : leaf = taken ++ s'.range := htaken
    exact hleaf n (htaken ▸ List.mem_append_left _ hn)
  obtain ⟨ops, rets, he⟩ := hg.emitted hno
  exact ⟨ops, rets, he.buf, he.words, he.closed, he.writes, he.used, he.returns, he.sites⟩

theorem gens_takeLeaf {reg : X64Reg} (sz : Nat) (hr : reg.calleeSaved = false) :
    Gens held j j (takeLeaf rec reg sz) fun _ => True := by
  intro s
  unfold takeLeaf
  rw [Run.sat_bind, Run.sat_get, Run.sat_bind]
  refine Run.sat_mono (genLeaf_grows hrec held j (s.range.take sz) hr s) ?_ fun _ _ h => h
  rintro _ s' ⟨hrange, hemitted⟩
  have hdrop : s.range = s.range.take sz ++ s'.range.drop sz := by
    rw [hrange, List.take_append_drop]
  refine ⟨⟨⟨_, hdrop.symm⟩, fun hno => ?_⟩, trivial⟩
  obtain ⟨ops, rets, he⟩ := hemitted fun n hn => hno _ hdrop n hn
  exact ⟨ops, rets, he.buf, he.words, he.closed, he.writes, he.used, he.returns, he.sites⟩

include ht

theorem gens_binaryRight (nt : CTType) :
    Gens held j j (binaryRight rec nt treg) fun _ => True := by
  have hw : ∀ {held : List X64Reg}, Writable held treg := .inl ht
  unfold binaryRight
  refine gens_get fun s => ?_
  dsimp only
  split
  · rename_i imm himm
    have hi := isSmallImm_le himm
    refine gens_bind (gens_skipNodes 2) fun _ _ => ?_
    split
    · exact gens_bind (gens_aluImm rfl hi hw) fun _ _ => gens_pure trivial
    · exact gens_bind (gens_genAluImm nt hi hw) fun _ _ => gens_pure trivial
  · split
    · refine gens_bind (gens_pickScratch treg) fun r hr => ?_
      refine gens_bind (gens_takeLeaf hrec _ hr) fun _ _ => ?_
      have hfree : Gens held j j (regFree r >>= fun _ => pure treg) fun _ => True :=
        gens_bind (gens_regFree r) fun _ _ => gens_pure trivial
      split
      · exact gens_bind gens_cmpRr fun _ _ => hfree
      · exact gens_bind (gens_genAluRr nt hw) fun _ _ => hfree
    · refine gens_saved fun l hl => ?_
      have hwl : Writable (l :: held) l := writable_held hl
      refine gens_bind (gens_movRr hwl) fun _ _ => ?_
      refine gens_bind (gens_single hrec ht) fun _ _ => ?_
      have hfree : Gens (l :: held) j j (regFree l >>= fun _ => pure l) fun _ => True :=
        gens_bind (gens_regFree l) fun _ _ => gens_pure trivial
      split
      · exact gens_bind gens_cmpRr fun _ _ => hfree
      · exact gens_bind (gens_genAluRr nt hwl) fun _ _ => hfree

theorem gens_genBinary (nt : CTType) (flagsOnly : Bool) :
    Gens held j j (genBinary rec nt treg flagsOnly) fun _ => True := by
  have hw : Writable held treg := .inl ht
  unfold genBinary
  refine gens_bind (gens_single hrec ht) fun _ _ => ?_
  refine gens_bind (gens_binaryRight hrec ht nt) fun res _ => ?_
  split
  · split
    · exact gens_bind (gens_setccZx hw) fun _ _ => gens_pure trivial
    · exact gens_pure trivial
  · exact gens_bind (gens_movRr hw) fun _ _ => gens_pure trivial

omit hrec in
theorem gens_addressCase (L : Layout) (t : CTType) (wantValue : Bool) :
    Gens held j j (addressCase L t treg wantValue) fun _ => True := by
  have hw : Writable held treg := .inl ht
  unfold addressCase
  refine gens_bind (gens_leafAddress L) fun leaf _ => ?_
  cases leaf with
  | none => exact gens_exit _
  | some leaf =>
    obtain ⟨addr, var⟩ := leaf
    refine gens_bind (gens_skipNodes _) fun _ _ => ?_
    split
    · rename_i h
      have hrax : Writable held .rax := h.2 ▸ hw
      exact gens_bind (gens_code (code_loadRaxAbs addr) rfl rfl hrax.dest) fun _ _ =>
        gens_pure trivial
    · refine gens_bind (gens_movImm64 hw) fun _ _ => ?_
      split
      · exact gens_bind (gens_load hw) fun _ _ => gens_pure trivial
      · exact gens_pure trivial

theorem gens_subscriptCase (wantValue : Bool) :
    Gens held j j (subscriptCase rec treg wantValue) fun _ => True := by
  have hw : ∀ {held : List X64Reg}, Writable held treg := .inl ht
  have hload : ∀ held, Gens held j j
      (if wantValue then emit (emitLoad treg treg 0) else pure ()) fun _ => True := by
    intro held
    split
    · exact gens_load hw
    · exact gens_pure trivial
  unfold subscriptCase
  refine gens_bind (gens_single hrec ht) fun _ _ => gens_get fun s => ?_
  dsimp only
  split
  · rename_i imm himm
    have hi := (Option.filter_eq_some_iff.mp himm).2
    refine gens_bind (gens_skipNodes 2) fun _ _ => ?_
    split
    · have h8 : imm * 8 ≤ int32Max := by
        have hle : imm ≤ int32Max / 8 := by simpa using hi
        unfold int32Max at hle ⊢
        omega
      exact gens_bind (gens_aluImm rfl h8 hw) fun _ _ => hload _
    · exact hload _
  · split
    · refine gens_bind (gens_pickScratch treg) fun r hr => ?_
      have hr' : Writable held r := .inl hr
      refine gens_bind (gens_takeLeaf hrec _ hr) fun _ _ => ?_
      exact gens_bind (gens_leaIdx8 hr'.ne.1 hw) fun _ _ => gens_bind (gens_regFree r) fun _ _ => hload _
    · refine gens_saved fun l hl => ?_
      refine gens_bind (gens_movRr (writable_held hl)) fun _ _ => ?_
      refine gens_bind (gens_single hrec ht) fun _ _ => ?_
      have hw' : Writable held treg := hw
      refine gens_bind (gens_leaIdx8 hw'.ne.1 hw) fun _ _ => ?_
      exact gens_bind (gens_regFree l) fun _ _ => hload _

omit ht in
theorem gens_storeElements {p : X64Reg} (i k : Nat) :
    Gens held j j (storeElements rec p i k) fun _ => True := by
  induction k generalizing i with
  | zero => exact gens_pure trivial
  | succ k ih =>
    have hd : Int32 (toInt32 (i * 8)) := int32_toInt32 _
    unfold storeElements
    refine gens_get fun s => ?_
    split
    · rename_i imm himm
      refine gens_bind (gens_skipNodes 2) fun _ _ => ?_
      have hc : Code (emitStoreImm32 p (toInt32 (i * 8)) imm) _ :=
        code_storeImm32 hd (int32_of_le (isSmallImm_le himm))
      exact gens_bind (gens_code hc rfl rfl fun _ h => (by cases h)) fun _ _ => ih _
    · refine gens_bind (gens_pickScratch p) fun e he => ?_
      refine gens_bind (gens_single hrec he) fun _ _ => ?_
      exact gens_bind (gens_store hd) fun _ _ => gens_bind (gens_regFree e) fun _ _ => ih _

theorem gens_literalCase (L : Layout) : Gens held j j (literalCase L rec treg) fun _ => True := by
  unfold literalCase
  refine gens_bind gens_getNodeValue fun data _ => gens_bind gens_peekToken fun t _ => ?_
  split
  · exact gens_exit _
  · refine gens_bind (gens_skipNodes 1) fun _ _ => gens_bind gens_getNodeValue fun count _ => ?_
    refine gens_saved fun p hp => gens_get fun s => ?_
    refine gens_bind (gens_movImm64 (writable_held hp)) fun _ _ => ?_
    refine gens_bind (gens_storeElements hrec 0 count) fun _ _ => ?_
    exact gens_bind (gens_movRr (.inl ht)) fun _ _ => gens_regFree p

theorem gens_assignLeaf (addr : Nat) : Gens held j j (assignLeaf rec treg addr) fun _ => True := by
  unfold assignLeaf
  refine gens_get fun s => gens_bind (gens_skipNodes _) fun _ _ => gens_get fun s' => ?_
  refine gens_bind (gens_single hrec ht) fun _ _ => ?_
  dsimp only
  split
  · have hc := code_storeRaxAbs addr
    exact gens_bind (gens_code hc rfl rfl fun _ h => (by cases h)) fun _ _ => gens_noteStore _ _
  · refine gens_bind (gens_pickScratch treg) fun a ha => ?_
    refine gens_bind (gens_movImm64 (.inl ha)) fun _ _ => ?_
    refine gens_bind (gens_store int32_zero) fun _ _ => ?_
    exact gens_bind (gens_regFree a) fun _ _ => gens_noteStore _ _

theorem gens_assignTree : Gens held j j (assignTree rec treg) fun _ => True := by
  have hw : Writable held treg := .inl ht
  unfold assignTree
  refine gens_get fun s => gens_bind (gens_single hrec ht) fun _ _ => gens_get fun s' => ?_
  dsimp only
  split
  · refine gens_bind (gens_pickScratch treg) fun v hv => ?_
    refine gens_bind (gens_takeLeaf hrec _ hv) fun _ _ => ?_
    refine gens_bind (gens_store int32_zero) fun _ _ => gens_bind (gens_movRr hw) fun _ _ => ?_
    exact gens_bind (gens_regFree v) fun _ _ => gens_noteStore _ _
  · refine gens_saved fun a ha => ?_
    refine gens_bind (gens_movRr (writable_held ha)) fun _ _ => ?_
    refine gens_bind (gens_single hrec ht) fun _ _ => ?_
    refine gens_bind (gens_store int32_zero) fun _ _ => ?_
    exact gens_bind (gens_regFree a) fun _ _ => gens_noteStore _ _

theorem gens_assignCase (L : Layout) : Gens held j j (assignCase L rec treg) fun _ => True := by
  unfold assignCase
  refine gens_bind (gens_leafAddress L) fun leaf _ => ?_
  cases leaf with
  | none => exact gens_assignTree hrec ht
  | some leaf => exact gens_assignLeaf hrec ht leaf.1

theorem gens_addAssignCase : Gens held j j (addAssignCase rec treg) fun _ => True := by
  have hw : ∀ {held : List X64Reg}, Writable held treg := .inl ht
  have hadd : ∀ {held : List X64Reg} {base src : X64Reg},
      Gens held j j (emit (emitAddMemReg base 0 src)) fun _ => True :=
    gens_code (code_addMemReg int32_zero) rfl rfl fun _ h => (by cases h)
  unfold addAssignCase
  refine gens_get fun s => gens_bind (gens_single hrec ht) fun _ _ => gens_get fun s' => ?_
  dsimp only
  split
  · refine gens_bind (gens_pickScratch treg) fun v hv => ?_
    refine gens_bind (gens_takeLeaf hrec _ hv) fun _ _ => gens_bind hadd fun _ _ => ?_
    refine gens_bind (gens_regFree v) fun _ _ => ?_
    exact gens_bind (gens_load hw) fun _ _ => gens_noteStore _ _
  · refine gens_saved fun a ha => ?_
    refine gens_bind (gens_movRr (writable_held ha)) fun _ _ => ?_
    refine gens_bind (gens_single hrec ht) fun _ _ => gens_bind hadd fun _ _ => ?_
    refine gens_bind (gens_load hw) fun _ _ => gens_bind (gens_regFree a) fun _ _ => ?_
    exact gens_noteStore _ _

/-! ## Calls -/

/-- A leaf that was kept is generated later. -/
def KeptLeaf (arg : Option (List Node)) : Prop := ∀ leaf, arg = some leaf → leafSize leaf ≠ 0

omit ht in
theorem gens_genLeaf {reg : X64Reg} {leaf : List Node} (hr : reg.calleeSaved = false)
    (hleaf : leafSize leaf ≠ 0) : Gens held j j (genLeaf rec reg leaf) fun _ => True := by
  intro s
  unfold genLeaf
  rw [Run.sat_bind, Run.sat_get, Run.sat_bind, Run.sat_modify, Run.sat_bind]
  refine Run.sat_mono (hrec.leaf held j reg (some reg) { s with range := leaf } hr hleaf) ?_
    fun _ _ h => h
  rintro a s' ⟨ops, rets, he⟩
  refine ⟨⟨List.suffix_rfl, fun _ => ⟨ops, rets, ?_⟩⟩, trivial⟩
  exact ⟨he.buf, he.words, he.closed, he.writes, he.used, he.returns, he.sites⟩

/-- The number of arguments that are on the stack. -/
def pushed (args : List (Option (List Node))) : Nat := args.countP Option.isNone

omit ht in
theorem gens_callArgs (held : List X64Reg) (j k : Nat) : ∀ s, (callArgs rec k).Sat s
    (fun args s' => Grows held j (j + pushed args) s s' ∧ args.length = k ∧
      ∀ arg ∈ args, KeptLeaf arg) fun _ _ => True := by
  have hskip : ∀ j n, Gens held j j (skipNodes n) fun _ => True := fun _ => gens_skipNodes
  have hsingle : ∀ j, Gens held j j (single rec .rax (some .rax)) fun _ => True :=
    fun _ => gens_single hrec rfl
  have hpush : ∀ j, Gens held j (j + 1) (emitPush .rax) fun _ => True := fun _ => gens_push .rax
  induction k generalizing j with
  | zero =>
    intro s
    exact ⟨.of_eq List.suffix_rfl rfl (fun _ h => h) rfl, rfl, fun _ h => by cases h⟩
  | succ k ih =>
    intro s
    unfold callArgs
    rw [Run.sat_bind, Run.sat_get]
    dsimp only
    split
    · rename_i hsize
      rw [Run.sat_bind]
      refine Run.sat_mono (hskip j _ s) ?_ fun _ _ h => h
      rintro _ s₁ ⟨hs₁, -⟩
      rw [Run.sat_bind]
      refine Run.sat_mono (ih j s₁) ?_ fun _ _ h => h
      rintro args s₂ ⟨hg, hlen, hkept⟩
      refine ⟨hs₁.trans ?_, by simp [hlen], ?_⟩
      · simpa [pushed] using hg
      · rintro arg harg leaf rfl
        rcases List.mem_cons.mp harg with he | harg
        · rw [Option.some.inj he]
          exact leafSize_take hsize
        · exact hkept _ harg leaf rfl
    · rw [Run.sat_bind]
      refine Run.sat_mono (hsingle j s) ?_ fun _ _ h => h
      rintro _ s₁ ⟨hs₁, -⟩
      rw [Run.sat_bind]
      refine Run.sat_mono (hpush j s₁) ?_ fun _ _ h => h
      rintro _ s₂ ⟨hs₂, -⟩
      rw [Run.sat_bind]
      refine Run.sat_mono (ih (j + 1) s₂) ?_ fun _ _ h => h
      rintro args s₃ ⟨hg, hlen, hkept⟩
      refine ⟨(hs₁.trans hs₂).trans ?_, by simp [hlen], ?_⟩
      · have hcount : j + pushed (none :: args) = j + 1 + pushed args := by
          simp [pushed]
          omega
        rw [hcount]
        exact hg
      · rintro arg harg leaf rfl
        rcases List.mem_cons.mp harg with he | harg
        · cases he
        · exact hkept _ harg leaf rfl

omit hrec ht in
theorem gens_popArgs (held : List X64Reg) (j : Nat) {args : List (X64Reg × Option (List Node))}
    (hregs : ∀ a ∈ args, a.1.calleeSaved = false) :
    Gens held (j + pushed (args.map Prod.snd)) j (popArgs args) fun _ => True := by
  induction args generalizing j with
  | nil => exact gens_pure trivial
  | cons a args ih =>
    obtain ⟨r, arg⟩ := a
    have ih := fun j => ih j fun a ha => hregs a (List.mem_cons_of_mem _ ha)
    unfold popArgs
    cases arg with
    | some leaf =>
      have hcount : pushed (((r, some leaf) :: args).map Prod.snd) =
          pushed (args.map Prod.snd) := by simp [pushed]
      rw [hcount]
      exact gens_bind (ih j) fun _ _ => gens_pure trivial
    | none =>
      have hcount : j + pushed (((r, none) :: args).map Prod.snd) =
          j + 1 + pushed (args.map Prod.snd) := by
        simp [pushed]
        omega
      rw [hcount]
      exact gens_bind (ih (j + 1)) fun _ _ => gens_pop (.inl (hregs _ List.mem_cons_self))

omit ht in
theorem gens_loadArgs {args : List (X64Reg × Option (List Node))}
    (hregs : ∀ a ∈ args, a.1.calleeSaved = false) (hkept : ∀ a ∈ args, KeptLeaf a.2) :
    Gens held j j (loadArgs rec args) fun _ => True := by
  induction args with
  | nil => exact gens_pure trivial
  | cons a args ih =>
    obtain ⟨r, arg⟩ := a
    have ih := ih (fun a ha => hregs a (List.mem_cons_of_mem _ ha))
      fun a ha => hkept a (List.mem_cons_of_mem _ ha)
    unfold loadArgs
    cases arg with
    | none => exact ih
    | some leaf =>
      have hleaf := hkept _ List.mem_cons_self leaf rfl
      exact gens_bind (gens_genLeaf hrec (hregs _ List.mem_cons_self) hleaf) fun _ _ => ih

omit hrec in
theorem gens_emitCall : Gens held j j (emitCall treg) fun _ => True := by
  have hxor : ∀ j, Gens held j j (emit (emitXor32Rr .rax .rax)) fun _ => True := fun j =>
    gens_code (code_xor32Rr .rax .rax) rfl rfl (Writable.dest (.inl rfl))
  have hcall : ∀ j, Gens held j j (emit (emitCallReg .r11)) fun _ => True := fun j =>
    gens_code (code_callReg .r11) rfl rfl fun _ h => (by cases h)
  have hmov : Gens held j j (emit (emitMovRr treg .rax)) fun _ => True := gens_movRr (.inl ht)
  have hsp : ∀ {op : Alu} {r : X64Reg}, op ≠ .cmp → (Instr.aluImm op .rsp 8).dest = some r →
      r ≠ .rsp → Writable held r := by
    intro op r hop hr hne
    have hr : (if op = .cmp then none else some Reg.rsp) = some r := hr
    rw [if_neg hop] at hr
    exact absurd (Option.some.inj hr).symm hne
  unfold emitCall
  refine gens_get fun s => ?_
  dsimp only
  split
  · refine gens_bind (gens_op code_rspAdjust_down rfl rfl fun _ => hsp (by decide)) fun _ _ => ?_
    refine gens_bind (hxor _) fun _ _ => gens_bind (hcall _) fun _ _ => ?_
    refine gens_bind (gens_op code_rspAdjust_up (k := j) rfl rfl fun _ => hsp (by decide)) ?_
    exact fun _ _ => hmov
  · exact gens_bind (hxor _) fun _ _ => gens_bind (hcall _) fun _ _ => hmov

/-- A callee that is no leaf is on the stack. -/
theorem gens_callCase : Gens held j j (callCase rec treg) fun _ => True := by
  intro s
  have hregs : ∀ r ∈ sysvArgRegs, r.calleeSaved = false := by decide
  -- the argument list and the call, with the callee's words on the stack
  have hrest : ∀ (n : Nat) (load : Gen Unit), Gens held (j + n) j load (fun _ => True) →
      Gens held (j + n) j (do
        if (← peekToken) ≠ .tComma then genExit 1
        else
          skipNodes 1
          let count ← getNodeValue
          if sysvArgRegs.length < count then genExit 1
          else
            let args ← callArgs rec count
            popArgs (sysvArgRegs.zip args)
            loadArgs rec (sysvArgRegs.zip args)
            load
            emitCall treg) fun _ => True := by
    intro n load hload
    refine gens_bind gens_peekToken fun t _ => ?_
    split
    · exact gens_exit _
    · refine gens_bind (gens_skipNodes 1) fun _ _ => gens_bind gens_getNodeValue fun count _ => ?_
      split
      · exact gens_exit _
      · rename_i hcount
        intro s
        rw [Run.sat_bind]
        refine Run.sat_mono (gens_callArgs hrec held (j + n) count s) ?_ fun _ _ h => h
        rintro args s' ⟨hg, hlen, hkept⟩
        have hzip : (sysvArgRegs.zip args).map Prod.snd = args :=
          List.map_snd_zip (by omega)
        have hzregs : ∀ a ∈ sysvArgRegs.zip args, a.1.calleeSaved = false :=
          fun a ha => hregs _ (List.of_mem_zip ha).1
        have hzkept : ∀ a ∈ sysvArgRegs.zip args, KeptLeaf a.2 :=
          fun a ha => hkept _ (List.of_mem_zip ha).2
        have hpop : Gens held (j + n + pushed args) (j + n) (popArgs (sysvArgRegs.zip args))
            fun _ => True := by
          have h := gens_popArgs held (j + n) hzregs
          rwa [hzip] at h
        have hafter := gens_bind hpop fun _ _ => gens_bind (gens_loadArgs hrec hzregs hzkept)
          fun _ _ => gens_bind hload fun _ _ => gens_emitCall ht
        exact Run.sat_mono (hafter s') (fun _ _ h => ⟨hg.trans h.1, h.2⟩) fun _ _ h => h
  unfold callCase
  rw [Run.sat_bind, Run.sat_get]
  dsimp only
  by_cases hsize : leafSize s.range = 0
  · rw [if_neg (by simpa using hsize)]
    simp only [if_neg (not_not.mpr hsize)]
    exact gens_bind (gens_single hrec rfl) (fun _ _ => gens_bind (gens_push .rax) fun _ _ =>
      hrest 1 _ (gens_pop (.inl rfl))) s
  · rw [if_pos hsize]
    simp only [if_pos hsize]
    exact gens_bind (gens_skipNodes _) (fun _ _ =>
      hrest 0 _ (gens_genLeaf hrec rfl (leafSize_take hsize))) s

end Parts

/-! ## Jumps -/

/-- A conditional jump. -/
def jccOp (cc : Cond) (rel : Int) (h : Int32 rel) : Op :=
  ⟨.jcc cc rel, jccOpcode cc ++ emiti32 rel, code_jcc cc h⟩

theorem emiti32_length (i : Int) : (emiti32 i).length = 4 := leBytes_length _ _

theorem jmpOp_length (rel : Int) (h : Int32 rel) : (jmpOp rel h).bytes.length = 5 := by
  rw [jmpOp, List.length_append, emiti32_length]
  rfl

theorem jccOp_length (cc : Cond) (rel : Int) (h : Int32 rel) :
    (jccOp cc rel h).bytes.length = 6 := by
  rw [jccOp, List.length_append, emiti32_length]
  rfl

/-- `patch_rel` replaces the four bytes of a distance. -/
theorem patchRel_ok {patch target : Nat} {s s' : GenState} {a b : Bytes} {old : Int}
    (h : patchRel patch target s = .ok () s') (hbuf : s.buf = a ++ emiti32 old ++ b)
    (hpatch : patch = a.length) :
    ∃ _ : Int32 ((target : Int) - (patch + 4)),
      s' = { s with buf := a ++ emiti32 ((target : Int) - (patch + 4)) ++ b } := by
  unfold patchRel at h
  split at h
  · cases h
  · rename_i hrange
    have hrel : Int32 ((target : Int) - (patch + 4)) := by
      unfold Int32
      unfold int32Max at hrange
      omega
    refine ⟨hrel, ?_⟩
    unfold patchBytes at h
    rw [Run.get_bind] at h
    split at h
    · have h := (Res.ok.inj h).2
      rw [← h, hbuf, emiti32_length, hpatch]
      have htake : (a ++ emiti32 old ++ b).take a.length = a := by
        rw [List.append_assoc, List.take_left]
      have hdrop : (a ++ emiti32 old ++ b).drop (a.length + 4) = b :=
        List.drop_left' (by rw [List.length_append, emiti32_length])
      rw [htake, hdrop]
    · cases h

theorem dest_of_distance {i : Instr} {rel : Int} (h : i.distance = some rel) : i.dest = none := by
  cases i <;> first | rfl | cases h

/-- A condition `c`, a jump over a body `b` and maybe a jump `d` behind it, when the distance of
    the first is known: it was emitted as `o₀`. -/
theorem Emitted.jumped {held : List X64Reg} {j : Nat} {s s₁ s₂ : GenState} {c b d : List Op}
    {rets rets' : List Nat} {o₀ o : Op} {rel : Int} (hc : Emitted held j j s s₁ c rets)
    (hb : Emitted held j j { s₁ with buf := s₁.buf ++ o₀.bytes } s₂ b rets')
    (hlen : o.bytes.length = o₀.bytes.length) (ho : o.instr.distance = some rel)
    (hd : ∀ p ∈ d, p.instr.distance ≠ none) (hclosed : Closed j (c ++ o :: (b ++ d))) :
    Emitted held j j s { s₂ with buf := s₁.buf ++ o.bytes ++ (assemble b ++ assemble d) }
      (c ++ o :: (b ++ d)) (rets ++ rets') where
  buf := by
    rw [hc.buf]
    simp only [assemble_append, assemble_cons, List.append_assoc]
  words := by
    have hwd : walk j d = some j := by
      clear hclosed
      induction d with
      | nil => rfl
      | cons p d ih =>
        obtain ⟨rel, hp⟩ := Option.ne_none_iff_exists'.mp (hd p List.mem_cons_self)
        rw [walk, Instr.words_of_distance hp, Option.bind_some]
        exact ih fun q hq => hd q (List.mem_cons_of_mem _ hq)
    rw [walk_append hc.words, walk, Instr.words_of_distance ho, Option.bind_some,
      walk_append hb.words, hwd]
  closed := hclosed
  writes p hp r hr := by
    rcases List.mem_append.mp hp with hp | hp
    · exact (hc.writes p hp r hr).mono (fun _ hl => .inl hl) hb.used
    · rcases List.mem_cons.mp hp with rfl | hp
      · rw [dest_of_distance ho] at hr
        cases hr
      · rcases List.mem_append.mp hp with hp | hp
        · exact hb.writes p hp r hr
        · obtain ⟨rel', hd⟩ := Option.ne_none_iff_exists'.mp (hd p hp)
          rw [dest_of_distance hd] at hr
          cases hr
  used r hr := hb.used r (hc.used r hr)
  returns := by
    have hr : s₂.returns = s₁.returns ++ rets' := hb.returns
    change s₂.returns = _
    rw [hr, hc.returns, List.append_assoc]
  sites p hp := by
    rcases List.mem_append.mp hp with hp | hp
    · exact (hc.sites p hp).append _
    · obtain ⟨pre, rel', h, post, rfl, rfl⟩ := hb.sites p hp
      refine ⟨c ++ o :: pre, rel', h, post ++ d, by simp, ?_⟩
      simp only [hc.buf, assemble_append, assemble_cons, List.length_append, hlen]
      omega

section Jumps

variable {rec : GenExpr} {held : List X64Reg} {j : Nat} (hrec : GensTree rec)

include hrec

/-- Behind the condition there is a jump whose distance is not known yet. -/
theorem genJumpIfFalse_grows (held : List X64Reg) (j : Nat) (s : GenState) :
    (genJumpIfFalse rec).Sat s (fun patch s' => ∃ s₁ cc, Grows held j j s s₁ ∧
      patch = s₁.buf.length + 2 ∧
      s' = { s₁ with buf := s₁.buf ++ (jccOp cc 0 int32_zero).bytes }) fun _ _ => True := by
  have hjcc : ∀ cc s₁, (emitJccRel32 cc).Sat s₁ (fun patch s' => patch = s₁.buf.length + 2 ∧
      s' = { s₁ with buf := s₁.buf ++ (jccOp cc 0 int32_zero).bytes }) fun _ _ => True := by
    intro cc s₁
    refine ⟨?_, ?_⟩
    · change (s₁.buf ++ jccOpcode cc).length = _
      rw [List.length_append]
      rfl
    · change { s₁ with buf := s₁.buf ++ jccOpcode cc ++ emiti32 0 } = _
      rw [List.append_assoc]
      rfl
  have hbehind : ∀ {x : Gen Cond}, Gens held j j x (fun _ => True) →
      (x >>= emitJccRel32).Sat s (fun patch s' => ∃ s₁ cc, Grows held j j s s₁ ∧
        patch = s₁.buf.length + 2 ∧
        s' = { s₁ with buf := s₁.buf ++ (jccOp cc 0 int32_zero).bytes }) fun _ _ => True := by
    intro x hx
    rw [Run.sat_bind]
    refine Run.sat_mono (hx s) ?_ fun _ _ h => h
    rintro cc s₁ ⟨hg, -⟩
    exact Run.sat_mono (hjcc cc s₁) (fun _ _ h => ⟨s₁, cc, hg, h⟩) fun _ _ h => h
  have hcompare : ∀ t, Gens held j j (skipNodes 1 >>= fun _ => genBinary rec t .rax true >>=
      fun cc => pure (negCond cc)) fun _ => True := fun t =>
    gens_bind (gens_skipNodes 1) fun _ _ =>
      gens_bind (gens_genBinary hrec rfl t true) fun _ _ => gens_pure trivial
  have htest : Gens held j j (single rec .rax (some .rax) >>= fun _ =>
      emit (emitTestRr .rax .rax) >>= fun _ => pure Cond.e) fun _ => True :=
    gens_bind (gens_single hrec rfl) fun _ _ =>
      gens_bind (gens_code (code_testRr .rax .rax) rfl rfl fun _ h => (by cases h)) fun _ _ =>
        gens_pure trivial
  have hsplit : genJumpIfFalse rec = (peekToken >>= fun t =>
      if isCompare t then skipNodes 1 >>= fun _ => genBinary rec t .rax true >>=
        fun cc => pure (negCond cc)
      else single rec .rax (some .rax) >>= fun _ => emit (emitTestRr .rax .rax) >>=
        fun _ => pure Cond.e) >>= emitJccRel32 := by
    unfold genJumpIfFalse
    rw [Run.bind_assoc]
    refine congrArg _ (funext fun t => ?_)
    split
    · simp only [Run.bind_assoc, Run.pure_bind']
    · simp only [Run.bind_assoc, Run.pure_bind']
  rw [hsplit]
  refine hbehind (gens_bind gens_peekToken fun t _ => ?_)
  split
  · exact hcompare t
  · exact htest

/-- The trees of a body. -/
theorem gens_statements (n k : Nat) : Gens held j j (statements rec n k) fun _ => True := by
  induction n generalizing k with
  | zero =>
    cases k with
    | zero => exact gens_pure trivial
    | succ k => exact gens_stop _
  | succ n ih =>
    cases k with
    | zero => exact gens_pure trivial
    | succ k => exact gens_bind (hrec.tree held j .rax none rfl) fun r _ => ih (k + r.1)

/-- A jump over the statements. -/
theorem gens_ifGen (n : Nat) : Gens held j j (ifGen rec n) fun _ => True := by
  have hbody : Gens held j j (statements rec n 1) fun _ => True := gens_statements hrec n 1
  intro s
  unfold ifGen
  rw [Run.sat_bind]
  refine Run.sat_mono (genJumpIfFalse_grows hrec held j s) ?_ fun _ _ h => h
  rintro patch s' ⟨s₁, cc, hc, rfl, rfl⟩
  rw [Run.sat_bind]
  refine Run.sat_mono (hbody _) ?_ fun _ _ h => h
  rintro _ s₂ ⟨hb, -⟩
  rw [Run.sat_bind, Run.sat_get]
  refine Run.sat_iff_ok.mpr fun _ s₃ h => ⟨?_, trivial⟩
  have hrange : s₃.range = s₂.range := congrArg Prod.fst ((still_patchRel _ _).of_ok h)
  have hbs : s₂.range <:+ s₁.range := hb.suffix
  refine ⟨hrange ▸ hbs.trans hc.suffix, fun hno => ?_⟩
  have hno : NoDefinition s s₂ := fun taken ht => hno taken (hrange ▸ ht)
  obtain ⟨c, rets, hce⟩ := hc.emitted (hno.left hbs)
  obtain ⟨b, rets', hbe⟩ := hb.emitted (hno.right hc.suffix)
  have hbuf : s₂.buf = s₁.buf ++ jccOpcode cc ++ emiti32 0 ++ assemble b := by
    rw [hbe.buf, jccOp]
    simp only [List.append_assoc]
  obtain ⟨hrel, rfl⟩ := patchRel_ok h hbuf (by rw [List.length_append]; rfl)
  have hdist : (s₂.buf.length : Int) - ((s₁.buf.length + 2 : Nat) + 4) =
      ((assemble b).length : Int) := by
    rw [hbe.buf]
    simp only [List.length_append, jccOp_length]
    push_cast
    omega
  have hover : Closed j (jccOp cc _ hrel :: (b ++ [])) := by
    rw [List.append_nil]
    exact Closed.over (congrArg some hdist) hbe.closed hbe.words
  have he := hce.jumped hbe (o := jccOp cc _ hrel) (d := [])
    ((jccOp_length ..).trans (jccOp_length ..).symm) rfl (fun _ hp => by cases hp)
    (hce.closed.append hce.words hover)
  have hbytes : s₁.buf ++ jccOpcode cc ++
      emiti32 ((s₂.buf.length : Int) - ((s₁.buf.length + 2 : Nat) + 4)) ++ assemble b =
      s₁.buf ++ (jccOp cc _ hrel).bytes ++ (assemble b ++ assemble []) := by
    simp only [jccOp, assemble_nil, List.append_nil, List.append_assoc]
  rw [hbytes]
  exact ⟨_, _, he⟩

/-- A loop: the jump out of it, and behind the statements the jump back to the condition. -/
theorem gens_whileGen (n : Nat) : Gens held j j (whileGen rec n) fun _ => True := by
  have hbody : Gens held j j (statements rec n 1) fun _ => True := gens_statements hrec n 1
  intro s
  unfold whileGen
  rw [Run.sat_bind, Run.sat_get, Run.sat_bind]
  refine Run.sat_mono (genJumpIfFalse_grows hrec held j s) ?_ fun _ _ h => h
  rintro patch s' ⟨s₁, cc, hc, rfl, rfl⟩
  rw [Run.sat_bind]
  refine Run.sat_mono (hbody _) ?_ fun _ _ h => h
  rintro _ s₂ ⟨hb, -⟩
  refine Run.sat_iff_ok.mpr fun _ s₄ h => ⟨?_, trivial⟩
  obtain ⟨back, s₂', hjmp, h⟩ := Run.bind_eq_ok.mp h
  have hback : back = (s₂.buf ++ jmpOpcode).length := (Res.ok.inj hjmp).1.symm
  obtain rfl : s₂' = { s₂ with buf := s₂.buf ++ jmpOpcode ++ emiti32 0 } :=
    (Res.ok.inj hjmp).2.symm
  obtain ⟨⟨⟩, s₃, h₃, h⟩ := Run.bind_eq_ok.mp h
  have h₄ : patchRel (s₁.buf.length + 2) s₃.buf.length s₃ = .ok () s₄ := h
  have hrange : s₄.range = s₂.range := by
    have hr₃ : s₃.range = s₂.range := congrArg Prod.fst ((still_patchRel _ _).of_ok h₃)
    have hr₄ : s₄.range = s₃.range := congrArg Prod.fst ((still_patchRel _ _).of_ok h₄)
    rw [hr₄, hr₃]
  have hbs : s₂.range <:+ s₁.range := hb.suffix
  refine ⟨hrange ▸ hbs.trans hc.suffix, fun hno => ?_⟩
  have hno : NoDefinition s s₂ := fun taken ht => hno taken (hrange ▸ ht)
  obtain ⟨c, rets, hce⟩ := hc.emitted (hno.left hbs)
  obtain ⟨b, rets', hbe⟩ := hb.emitted (hno.right hc.suffix)
  obtain ⟨hrel₂, rfl⟩ := patchRel_ok h₃ (List.append_nil _).symm hback
  have hbuf₁ : s₂.buf ++ jmpOpcode ++ emiti32 ((s.buf.length : Int) - (back + 4)) ++ [] =
      s₁.buf ++ jccOpcode cc ++ emiti32 0 ++ (assemble b ++ assemble [jmpOp _ hrel₂]) := by
    rw [hbe.buf, assemble_cons, assemble_nil, jmpOp, jccOp]
    simp only [List.append_assoc, List.append_nil]
  obtain ⟨hrel₁, rfl⟩ := patchRel_ok h₄ hbuf₁ (by rw [List.length_append]; rfl)
  have hlen₁ : s₁.buf.length = s.buf.length + (assemble c).length := by
    rw [hce.buf, List.length_append]
  have hlen₂ : s₂.buf.length = s₁.buf.length + 6 + (assemble b).length := by
    rw [hbe.buf, List.length_append, List.length_append, jccOp_length]
  have hback : back = s₂.buf.length + 1 := by
    rw [hback, List.length_append]
    rfl
  have hlen₃ : (s₂.buf ++ jmpOpcode ++ emiti32 ((s.buf.length : Int) - (back + 4)) ++ []).length =
      s₂.buf.length + 5 := by
    simp only [List.length_append, emiti32_length, List.length_nil]
    rfl
  have hclosed : Closed j (c ++ jccOp cc _ hrel₁ :: (b ++ [jmpOp _ hrel₂])) := by
    refine Closed.loop hce.closed hce.words hbe.closed hbe.words (congrArg some ?_)
      (congrArg some ?_)
    · simp only [hlen₃, hlen₂, assemble_append, assemble_cons, assemble_nil, List.length_append,
        jmpOp_length, List.length_nil]
      push_cast
      omega
    · simp only [hback, hlen₂, hlen₁, assemble_append, assemble_cons, assemble_nil,
        List.length_append, jmpOp_length, jccOp_length, List.length_nil]
      push_cast
      omega
  have he := hce.jumped hbe (o := jccOp cc _ hrel₁) (d := [jmpOp _ hrel₂])
    ((jccOp_length ..).trans (jccOp_length ..).symm) rfl
    (fun p hp => by rw [List.mem_singleton.mp hp]; exact Option.some_ne_none _) hclosed
  have hbytes : s₁.buf ++ jccOpcode cc ++ emiti32 (((s₂.buf ++ jmpOpcode ++
      emiti32 ((s.buf.length : Int) - (back + 4)) ++ []).length : Int) -
        ((s₁.buf.length + 2 : Nat) + 4)) ++ (assemble b ++ assemble [jmpOp _ hrel₂]) =
      s₁.buf ++ (jccOp cc _ hrel₁).bytes ++ (assemble b ++ assemble [jmpOp _ hrel₂]) := by
    simp only [jccOp, List.append_assoc]
  rw [hbytes]
  exact ⟨_, _, he⟩

/-- A jump to the epilogue, whose distance is not known yet. -/
theorem gens_returnGen : Gens held j j (returnGen rec) fun _ => True := by
  unfold returnGen
  refine gens_bind (hrec.tree held j .rax _ rfl) fun r _ => ?_
  obtain ⟨i, var⟩ := r
  dsimp only
  split
  · exact gens_exit _
  · intro s
    have hop : ∀ p ∈ [s.buf.length + 1], JumpSite s.buf.length [jmpOp 0 int32_zero] p := by
      intro p hp
      rw [List.mem_singleton.mp hp]
      exact ⟨[], 0, int32_zero, [], rfl, rfl⟩
    refine ⟨⟨List.suffix_rfl, fun _ => ⟨[jmpOp 0 int32_zero], [s.buf.length + 1], ?_⟩⟩, trivial⟩
    constructor
    · change s.buf ++ jmpOpcode ++ emiti32 0 = _
      rw [assemble_cons, assemble_nil, List.append_nil, jmpOp, List.append_assoc]
    · rfl
    · exact Closed.over rfl .nil rfl
    · intro o ho r hr
      rw [List.mem_singleton.mp ho] at hr
      cases hr
    · exact fun _ h => h
    · change s.returns ++ [(s.buf ++ jmpOpcode).length] = _
      rw [List.length_append]
      rfl
    · exact hop

end Jumps

/-! ## Functions -/

section Functions

variable {rec : GenExpr} {held : List X64Reg} {j : Nat} (hrec : GensTree rec)

include hrec

theorem gens_storeParams (regs : List X64Reg) (k : Nat) :
    Gens held j j (storeParams rec regs k) fun _ => True := by
  induction k generalizing regs with
  | zero => cases regs <;> exact gens_pure trivial
  | succ k ih =>
    cases regs with
    | nil => exact gens_stop _
    | cons r regs =>
      exact gens_bind (hrec.tree held j .rax none rfl) fun _ _ =>
        gens_bind (gens_store int32_zero) fun _ _ => ih regs

/-- The parameters and the body. -/
theorem gens_functionTrees (n argCount : Nat) :
    Gens held j j (functionTrees rec n argCount) fun _ => True := by
  unfold functionTrees
  split
  · refine gens_bind (hrec.tree held j .rax none rfl) fun r _ => ?_
    dsimp only
    split
    · exact gens_bind (gens_exit (Q := fun _ => True) _) fun _ _ => gens_statements hrec n 1
    · exact gens_bind (gens_storeParams hrec _ _) fun _ _ => gens_statements hrec n 1
  · exact gens_statements hrec n 1

end Functions

/-- `x` takes nodes from the front of the stream. -/
abbrev Shrinks {α : Type} (x : Gen α) : Prop :=
  Run.Along (fun s s' : GenState => s'.range <:+ s.range) x

section Shrinks

variable {α β : Type}

theorem Gens.shrinks {held : List X64Reg} {j k : Nat} {x : Gen α} {Q : α → Prop}
    (h : Gens held j k x Q) : Shrinks x :=
  fun s => Run.sat_mono (h s) (fun _ _ h => h.1.suffix) fun _ _ h => h

theorem Still.shrinks {x : Gen α} (h : Still x) : Shrinks x := by
  intro s
  refine Run.sat_mono (h s) (fun _ s' h => ?_) fun _ _ _ => trivial
  have hrange : s'.range = s.range := congrArg Prod.fst h
  change s'.range <:+ s.range
  exact hrange ▸ List.suffix_rfl

theorem shrinks_bind {x : Gen α} {f : α → Gen β} (hx : Shrinks x) (hf : ∀ a, Shrinks (f a)) :
    Shrinks (x >>= f) :=
  Run.along_bind (fun _ _ _ h h' => h'.trans h) hx hf

theorem shrinks_codegenFunc {rec : GenExpr} (hrec : GensTree rec) (n : Nat) (value : Dest)
    (argCount : Nat) : Shrinks (codegenFunc rec n value argCount) := by
  have htrees : Gens [] 0 0 (functionTrees rec n argCount) fun _ => True :=
    gens_functionTrees hrec n argCount
  unfold codegenFunc
  refine shrinks_bind still_get.shrinks fun outer => ?_
  refine shrinks_bind (still_modify fun _ => ⟨rfl, rfl⟩).shrinks fun _ => ?_
  refine shrinks_bind still_prologue.shrinks fun ats => ?_
  refine shrinks_bind (still_modify fun _ => ⟨rfl, rfl⟩).shrinks fun _ => ?_
  refine shrinks_bind htrees.shrinks fun _ => ?_
  refine shrinks_bind (still_finishFunction _ _).shrinks fun _ => ?_
  refine shrinks_bind (still_modify fun _ => ⟨rfl, rfl⟩).shrinks fun _ => ?_
  exact (still_moveToFront _).shrinks

theorem shrinks_definitionCase {rec : GenExpr} (hrec : GensTree rec) (n : Nat) :
    Shrinks (definitionCase rec n) := by
  have hsingle : Gens [] 0 0 (single rec .rax (some .rax)) fun _ => True := gens_single hrec rfl
  have hempty : Gens [] 0 0 (rec .rax none) fun _ => True := hrec.tree [] 0 .rax none rfl
  unfold definitionCase
  refine shrinks_bind still_get.shrinks fun s => shrinks_bind hsingle.shrinks fun var => ?_
  cases var with
  | none => exact (still_exit _).shrinks
  | some v =>
    refine shrinks_bind still_get.shrinks fun s' => ?_
    refine shrinks_bind (still_lift _).shrinks fun entry => ?_
    split
    · exact (still_exit _).shrinks
    · rename_i type htype
      split
      · exact (still_exit _).shrinks
      · have hfunc : Shrinks (do
            Run.modify fun t : GenState => { t with buf := t.buf.take s.buf.length }
            codegenFunc rec n (.var v) type.size) :=
          shrinks_bind (still_modify fun _ => ⟨rfl, rfl⟩).shrinks fun _ =>
            shrinks_codegenFunc hrec _ _ _
        refine shrinks_bind (still_modify fun _ => ⟨rfl, rfl⟩).shrinks fun _ => ?_
        split
        · refine shrinks_bind hempty.shrinks fun r => ?_
          dsimp only
          split
          · exact shrinks_bind (still_exit _).shrinks fun _ => hfunc
          · exact hfunc
        · exact hfunc

end Shrinks

/-! ## Expressions -/

/-- The nodes that were taken, when none of them is a definition. -/
theorem NoDefinition.of_taken {s s' : GenState} {taken : List Node}
    (h : s.range = taken ++ s'.range) (hno : ∀ n ∈ taken, n.token? ≠ some .tAt) :
    NoDefinition s s' := by
  intro taken' h' n hn
  exact hno n (List.append_cancel_right (h.symm.trans h') ▸ hn)

theorem getNodeToken_inv {s s' : GenState} {t : CTType} (h : getNodeToken s = .ok t s') :
    ∃ loc rest, s.range = .tok loc :: rest ∧ t = loc.token ∧ s' = { s with range := rest } := by
  cases hr : s.range with
  | nil => simp [getNodeToken, getNode, Run.bind_apply, hr, streamExit, genExit] at h
  | cons n rest =>
    cases n with
    | tok loc =>
      rw [getNodeToken_ok hr] at h
      obtain ⟨rfl, rfl⟩ := Res.ok.inj h
      exact ⟨loc, rest, rfl, rfl, rfl⟩
    | _ => simp [getNodeToken, getNode, Run.bind_apply, hr] at h

theorem getNodeValue_inv {s s' : GenState} {v : Nat} (h : getNodeValue s = .ok v s') :
    ∃ rest, s.range = .value v :: rest ∧ s' = { s with range := rest } := by
  cases hr : s.range with
  | nil => simp [getNodeValue, getNode, Run.bind_apply, hr, streamExit, genExit] at h
  | cons n rest =>
    cases n with
    | value w =>
      simp only [getNodeValue, getNode, Run.bind_apply, Run.get_apply, hr, Run.set_apply,
        Run.pure_apply] at h
      obtain ⟨rfl, rfl⟩ := Res.ok.inj h
      exact ⟨rest, rfl, rfl⟩
    | _ => simp [getNodeValue, getNode, Run.bind_apply, hr] at h

/-- Every token emits code, but for a definition. -/
theorem gens_codegenExpr (L : Layout) (n : Nat) (held : List X64Reg) (j : Nat)
    (treg : X64Reg) (sreg : Option X64Reg) (ht : treg.calleeSaved = false)
    (ih : GensTree (codegenExpr L n)) : Gens held j j (codegenExpr L (n + 1) treg sreg)
      fun _ => True := by
  have hw : Writable held treg := .inl ht
  intro s
  unfold codegenExpr
  dsimp only
  rw [Run.sat_bind, Run.sat_get, Run.sat_bind]
  refine Run.sat_iff_ok.mpr fun t s₁ hs₁ => ?_
  obtain ⟨loc, rest, hrange, hloc, rfl⟩ := getNodeToken_inv hs₁
  have hskip : Grows held j j s { s with range := rest } :=
    .of_eq (hrange ▸ List.suffix_cons _ _) rfl (fun _ h => h) rfl
  have hrestore : { s with range := s.range } = s := rfl
  -- code that reads on behind the token
  have hgo : ∀ {x : Gen (Nat × Option Nat)}, Gens held j j x (fun _ => True) →
      x.Sat { s with range := rest } (fun _ s' => Grows held j j s s' ∧ True) fun _ _ => True :=
    fun hx => Run.sat_mono (hx _) (fun _ _ h => ⟨hskip.trans h.1, h.2⟩) fun _ _ h => h
  have hdone : ∀ {x : Gen Unit}, Gens held j j x (fun _ => True) →
      Gens held j j (x >>= fun _ => pure ((0 : Nat), (none : Option Nat))) fun _ => True :=
    fun hx => gens_bind hx fun _ _ => gens_pure trivial
  have hbinary : ∀ t, Gens held j j (genBinary (codegenExpr L n) t treg false >>= fun _ =>
      pure ((0 : Nat), (none : Option Nat))) fun _ => True :=
    fun t => gens_bind (gens_genBinary ih ht t false) fun _ _ => gens_pure trivial
  have haddress : ∀ t, (addressCase L t treg sreg.isSome >>= fun var =>
      pure ((0 : Nat), var)).Sat s (fun _ s' => Grows held j j s s' ∧ True) fun _ _ => True :=
    fun t => gens_bind (gens_addressCase ht L t _) (fun _ _ => gens_pure trivial) s
  cases t
  case nBlock =>
    refine hgo (gens_bind (gens_modify fun _ => ⟨List.suffix_rfl, rfl, rfl, rfl⟩) fun _ _ => ?_)
    exact gens_bind gens_getNodeValue fun _ _ => gens_pure trivial
  case tComma => exact hgo (gens_bind gens_getNodeValue fun _ _ => gens_pure trivial)
  case tNumber =>
    exact hgo (gens_bind gens_getNodeValue fun _ _ => hdone (gens_movConst hw))
  case tString =>
    exact hgo (gens_bind gens_getNodeValue fun _ _ => gens_get fun _ => hdone (gens_movImm64 hw))
  case tMstring =>
    exact hgo (gens_bind gens_getNodeValue fun _ _ => gens_get fun _ => hdone (gens_movImm64 hw))
  case tThis => exact haddress _
  case tIdentifier => exact haddress _
  case nAddress => exact haddress _
  case nArray => exact hgo (hdone (gens_literalCase ih ht L))
  case tOsb => exact hgo (hdone (gens_subscriptCase ih ht _))
  case tEq => exact hgo (hdone (gens_assignCase ih ht L))
  case tAddeq => exact hgo (hdone (gens_addAssignCase ih ht))
  case tAdd => exact hgo (hbinary _)
  case tSub => exact hgo (hbinary _)
  case tMul => exact hgo (hbinary _)
  case tEqeq => exact hgo (hbinary _)
  case tLess => exact hgo (hbinary _)
  case tLesseq => exact hgo (hbinary _)
  case tCall => exact hgo (hdone (gens_callCase ih ht))
  case tDot => exact trivial
  case tIf => exact hgo (hdone (gens_ifGen ih n))
  case tWhile => exact hgo (hdone (gens_whileGen ih n))
  case tReturn => exact hgo (hdone (gens_returnGen ih))
  case tAt =>
    -- the nodes that are taken have a definition
    rw [Run.sat_bind]
    refine Run.sat_mono (shrinks_definitionCase ih n _) ?_ fun _ _ h => h
    rintro _ s' hs'
    have hs' : s'.range <:+ rest := hs'
    refine ⟨⟨hs'.trans (hrange ▸ List.suffix_cons _ _), fun hno => ?_⟩, trivial⟩
    obtain ⟨more, hmore⟩ := hs'
    refine absurd ?_ (hno (.tok loc :: more) ?_ (.tok loc) List.mem_cons_self)
    · exact congrArg some hloc.symm
    · rw [hrange, ← hmore, List.cons_append]
  all_goals exact trivial

theorem Still.range_of_ok {α : Type} {x : Gen α} (h : Still x) {s s' : GenState} {a : α}
    (hs : x s = .ok a s') : s'.range = s.range :=
  congrArg Prod.fst (h.of_ok hs)

/-- The payload of a leaf with an address is no token. -/
theorem leafAddress_payload {L : Layout} {s s' : GenState} {n m : Node} {rest : List Node}
    {t : CTType} {leaf : Nat × Option Nat} (h : leafAddress L s = .ok (some leaf) s')
    (hrange : s.range = n :: m :: rest) (ht : n.token? = some t) (hthis : t ≠ .tThis) :
    m.token? = none := by
  unfold leafAddress at h
  rw [Run.get_bind, hrange] at h
  dsimp only at h
  rw [ht] at h
  cases t with
  | nAddress => cases m <;> first | rfl | cases h
  | tIdentifier => cases m <;> first | rfl | cases h
  | tThis => exact absurd rfl hthis
  | _ => cases h

/-- A leaf takes its own nodes, and they are no definition. -/
theorem codegenExpr_leaf {L : Layout} {n : Nat} {treg : X64Reg} {sreg : Option X64Reg}
    {s s' : GenState} {r : Nat × Option Nat} (hleaf : leafSize s.range ≠ 0)
    (h : codegenExpr L (n + 1) treg sreg s = .ok r s') : NoDefinition s s' := by
  have htok : ∀ {m : Node} {t : CTType}, m.token? = some t → ∃ loc, m = .tok loc ∧ loc.token = t := by
    intro m t hm
    cases m with
    | tok loc => exact ⟨loc, rfl, Option.some.inj hm⟩
    | _ => cases hm
  -- a number or a string: its payload is read, and the code does not read on
  have hvalue : ∀ {loc : Loc} {more : List Node} {f : Nat → Gen (Nat × Option Nat)},
      s.range = .tok loc :: more → loc.token ≠ .tAt → (∀ v, Still (f v)) →
      (getNodeValue >>= f) { s with range := more } = .ok r s' → NoDefinition s s' := by
    intro loc more f hrange hloc hf h
    obtain ⟨v, s₁, hv, h⟩ := Run.bind_eq_ok.mp h
    obtain ⟨rest, hmore, rfl⟩ := getNodeValue_inv hv
    have hrest : s'.range = rest := (hf v).range_of_ok h
    have hmore : more = .value v :: rest := hmore
    have hsplit : s.range = [.tok loc, .value v] ++ s'.range := by
      rw [hrange, hmore, hrest]
      rfl
    refine .of_taken hsplit fun m hm => ?_
    simp only [List.mem_cons, List.not_mem_nil, or_false] at hm
    rcases hm with rfl | rfl
    · exact fun he => hloc (Option.some.inj he)
    · exact fun he => by cases he
  -- an address: the nodes in front of the rest
  have haddress : ∀ {t : CTType} {f : Option Nat → Gen (Nat × Option Nat)} {taken : List Node},
      (∀ v, Still (f v)) → (∀ leaf s₁, leafAddress L s = .ok (some leaf) s₁ →
        s.range = taken ++ s.range.drop (if t = .tThis then 1 else 2) ∧
          ∀ m ∈ taken, m.token? ≠ some .tAt) →
      (addressCase L t treg sreg.isSome >>= f) s = .ok r s' → NoDefinition s s' := by
    intro t f taken hf hleaf h
    obtain ⟨var, s₁, ha, h⟩ := Run.bind_eq_ok.mp h
    unfold addressCase at ha
    obtain ⟨leaf, s₂, hl, ha⟩ := Run.bind_eq_ok.mp ha
    cases leaf with
    | none => cases ha
    | some leaf =>
      obtain ⟨hsplit, hno⟩ := hleaf leaf s₂ hl
      have h₂ : s₂.range = s.range := (still_leafAddress L).range_of_ok hl
      obtain ⟨⟨⟩, s₃, hs₃, ha⟩ := Run.bind_eq_ok.mp ha
      have h₃ : s₃.range = s₂.range.drop (if t = .tThis then 1 else 2) :=
        congrArg GenState.range (Res.ok.inj hs₃).2.symm
      have h₁ : s₁.range = s₃.range := by
        refine Still.range_of_ok ?_ ha
        split
        · exact Run.keeps_bind (still_emit _) fun _ => still_pure _
        · refine Run.keeps_bind (still_emit _) fun _ => ?_
          split
          · exact Run.keeps_bind (still_emit _) fun _ => still_pure _
          · exact still_pure _
      refine .of_taken ?_ hno
      rw [(hf var).range_of_ok h, h₁, h₃, h₂, ← hsplit]
  have hpure : ∀ v : Option Nat, Still (pure (0, v) : Gen (Nat × Option Nat)) :=
    fun _ => still_pure _
  rcases leafSize_cases hleaf with ⟨a, m, rest, t, hrange, ha, hmem⟩ | ⟨a, rest, hrange, ha⟩
  · obtain ⟨loc, rfl, hloc⟩ := htok ha
    -- the payload of an address is no token
    have htwo : ∀ {t' : CTType}, loc.token = t' → t' ≠ .tThis → t' ≠ .tAt → ∀ leaf s₁,
        leafAddress L s = .ok (some leaf) s₁ →
        s.range = [.tok loc, m] ++ s.range.drop (if t' = .tThis then 1 else 2) ∧
          ∀ x ∈ [.tok loc, m], x.token? ≠ some .tAt := by
      intro t' ht' hthis hat leaf s₁ hl
      have hm := leafAddress_payload hl hrange (congrArg some ht') hthis
      refine ⟨by rw [hrange, if_neg hthis]; rfl, fun x hx => ?_⟩
      simp only [List.mem_cons, List.not_mem_nil, or_false] at hx
      rcases hx with rfl | rfl
      · exact fun he => hat (ht'.symm.trans (Option.some.inj he))
      · rw [hm]
        exact fun he => by cases he
    have hnum : ∀ f : Nat → Bytes, ∀ v, Still (emit (f v) >>= fun _ =>
        pure ((0 : Nat), (none : Option Nat))) :=
      fun f v => Run.keeps_bind (still_emit _) fun _ => still_pure _
    have hstr : ∀ v, Still (Run.get >>= fun s' : GenState => emit (emitMovImm64 treg
        (L.dataPtr s'.cup v)) >>= fun _ => pure ((0 : Nat), (none : Option Nat))) :=
      fun v => Run.keeps_bind still_get fun _ => Run.keeps_bind (still_emit _) fun _ => still_pure _
    simp only [payloadLeaf, List.mem_cons, List.not_mem_nil, or_false] at hmem
    simp only [codegenExpr, Run.get_bind, Run.bind_of_ok (getNodeToken_ok hrange), hloc] at h
    rcases hmem with rfl | rfl | rfl | rfl | rfl
    · exact hvalue hrange (by rw [hloc]; decide) (hnum _) h
    · exact hvalue hrange (by rw [hloc]; decide) hstr h
    · exact hvalue hrange (by rw [hloc]; decide) hstr h
    · exact haddress hpure (htwo hloc (by decide) (by decide)) h
    · exact haddress hpure (htwo hloc (by decide) (by decide)) h
  · obtain ⟨loc, rfl, hloc⟩ := htok ha
    simp only [codegenExpr, Run.get_bind, Run.bind_of_ok (getNodeToken_ok hrange), hloc] at h
    have hone : ∀ leaf s₁, leafAddress L s = .ok (some leaf) s₁ →
        s.range = [.tok loc] ++ s.range.drop (if CTType.tThis = .tThis then 1 else 2) ∧
          ∀ x ∈ [Node.tok loc], x.token? ≠ some .tAt := by
      intro leaf s₁ _
      refine ⟨by rw [hrange]; rfl, fun x hx => ?_⟩
      rw [List.mem_singleton.mp hx]
      exact fun he => by cases hloc.symm.trans (Option.some.inj he)
    exact haddress hpure hone h

/-- `codegen_expr` emits code that keeps the registers, the stack and the jumps in order. -/
theorem gensTree_codegenExpr (L : Layout) (n : Nat) : GensTree (codegenExpr L n) := by
  induction n with
  | zero =>
    exact ⟨fun _ _ _ _ _ => gens_stop _, fun _ _ _ _ _ _ _ => trivial⟩
  | succ n ih =>
    refine ⟨fun held j treg sreg ht => gens_codegenExpr L n held j treg sreg ht ih, ?_⟩
    intro held j treg sreg s ht hleaf
    refine Run.sat_iff_ok.mpr fun r s' h => ?_
    exact ((gens_codegenExpr L n held j treg sreg ht ih).of_ok h).1.emitted
      (codegenExpr_leaf hleaf h)

end Cup
