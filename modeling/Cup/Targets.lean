/-
  Where the branches of a function lead (`codegen_func` and the cases `T_IF`, `T_WHILE` and
  `T_RETURN` of `codegen_expr`, `src/codegen/x64codegen.c`).

  `Branches t ss bytes`: the bytes are code of the statements, and when the epilogue starts `t`
  bytes behind the first of them, each jump leads to the instruction that it is meant for. The code
  that is emitted has such branches, and it keeps them when its last return is dropped from a sound
  body (`Laid.branches_end`). From any other body a jump leads to 5 bytes behind the start of the
  epilogue (`Laid.strays`), and there is no other way to read the bytes (`Targets.unique`).

  Proved: `codegenFunc_branches`. The conditions are those of the code of a function
  (`Cup.Function`); a function of more than 6 parameters is not written at all.
-/
import Cup.Lib.X64Targets
import Cup.Function

namespace Cup

open Lib (Stop Run Res)
open Lib.X64

/-- The bytes are code of the statements, and their jumps lead where they should when the epilogue
    is `t` bytes behind the first of them: the false branch of an `if` behind its body, that of a
    loop behind the jump back to the condition, a return to the epilogue, unless it is right in
    front of it. -/
inductive Branches : Nat → List Stmt → Bytes → Prop where
  | nil {t : Nat} : Branches t [] []
  | expr {t : Nat} {e : Expr} {bytes : Bytes} : Straight bytes → Branches t [.expr e] bytes
  | block {t : Nat} {ss : List Stmt} {bytes : Bytes} : Branches t ss bytes →
    Branches t [.block ss] bytes
  | ite {t : Nat} {e : Expr} {body : Stmt} {c j b : Bytes} {cc : Cond} {rel : Int} : Straight c →
    Code j [.jcc cc rel] → rel = b.length → Branches t [body] b →
    Branches ((c ++ j).length + t) [.ite e body] (c ++ j ++ b)
  | loop {t : Nat} {e : Expr} {body : Stmt} {c j b p : Bytes} {cc : Cond} {rel back : Int} :
    Straight c → Code j [.jcc cc rel] → rel = (b ++ p).length → Branches t [body] b →
    Code p [.jmp back] → back = -((c ++ j ++ b ++ p).length : Int) →
    Branches ((c ++ j).length + t) [.loop e body] (c ++ j ++ b ++ p)
  | ret {t : Nat} {e : Expr} {bytes j : Bytes} {rel : Int} : Straight bytes → Code j [.jmp rel] →
    rel = t → Branches ((bytes ++ j).length + t) [.ret e] (bytes ++ j)
  | dropped {e : Expr} {bytes : Bytes} : Straight bytes → Branches bytes.length [.ret e] bytes
  | cons {t : Nat} {s : Stmt} {ss : List Stmt} {a b : Bytes} : Branches (a.length + t) [s] a →
    Branches t ss b → Branches (a.length + t) (s :: ss) (a ++ b)

section Branches

variable {at_ t : Nat} {ss : List Stmt} {cs : List Chunk} {bytes : Bytes}

/-- None of the jumps leads behind the code and the start of the epilogue. -/
theorem Branches.targets (h : Branches t ss bytes) :
    ∃ ts, Targets at_ bytes ts ∧ ∀ x ∈ ts, x ≤ at_ + max t bytes.length := by
  induction h generalizing at_ with
  | nil => exact ⟨[], .nil, fun _ h => by cases h⟩
  | expr hb => exact ⟨[], hb.targets, fun _ h => by cases h⟩
  | block _ ih => exact ih
  | @ite t e body c j b cc rel hc hj hrel _ ih =>
    obtain ⟨ts, hb, hle⟩ := @ih (at_ + (c ++ j).length)
    have hlen : (c ++ j ++ b).length = (c ++ j).length + b.length := List.length_append
    refine ⟨_, (hc.targets_jump hj rfl).append hb, fun x hx => ?_⟩
    rcases List.mem_cons.mp hx with rfl | hx
    · omega
    · have hx := hle x hx
      omega
  | @loop t e body c j b p cc rel back hc hj hrel _ hp hback ih =>
    obtain ⟨ts, hb, hle⟩ := @ih (at_ + (c ++ j).length)
    have hbody : (c ++ j ++ b).length = (c ++ j).length + b.length := List.length_append
    have hlen : (c ++ j ++ b ++ p).length = (c ++ j ++ b).length + p.length := List.length_append
    rw [List.length_append] at hrel
    have hfront := (hc.targets_jump hj rfl).append hb
    refine ⟨_, hfront.append (targets_jump hp rfl), fun x hx => ?_⟩
    rcases List.mem_append.mp hx with hx | hx
    · rcases List.mem_cons.mp hx with rfl | hx
      · omega
      · have hx := hle x hx
        omega
    · rw [List.mem_singleton.mp hx]
      omega
  | @ret t e bytes j rel hb hj hrel =>
    refine ⟨_, hb.targets_jump hj rfl, fun x hx => ?_⟩
    rw [List.mem_singleton.mp hx]
    omega
  | dropped hb => exact ⟨[], hb.targets, fun _ h => by cases h⟩
  | @cons t s ss a b _ _ iha ihb =>
    obtain ⟨ts, ha, hle⟩ := @iha at_
    obtain ⟨us, hb, hle'⟩ := @ihb (at_ + a.length)
    refine ⟨_, ha.append hb, fun x hx => ?_⟩
    rw [List.length_append]
    rcases List.mem_append.mp hx with hx | hx
    · have hx := hle x hx
      omega
    · have hx := hle' x hx
      omega

/-! ## The code that is emitted -/

theorem Branches.cast {t' : Nat} (h : Branches t ss bytes) (ht : t = t') : Branches t' ss bytes :=
  ht ▸ h

theorem Laid.branches (h : Laid ss cs) (ht : Chunk.size cs ≤ t) (hr : Chunk.InRange t cs) :
    Branches t ss (Chunk.fill t cs) := by
  induction h generalizing t with
  | nil => exact .nil
  | expr hb _ =>
    rw [Chunk.fill, Chunk.fill, List.append_nil]
    exact .expr hb
  | block _ ih => exact .block (ih ht hr)
  | @ite e body c j b cc rel _ hc hj hrel ih =>
    rw [Chunk.size_code] at ht
    rw [Chunk.fill]
    have hbody := ih (t := t - (c ++ j).length) (by omega) hr
    exact (Branches.ite hc hj (by rw [Chunk.fill_length, hrel]) hbody).cast (by omega)
  | @loop e body c j p b cc rel back _ hc hj hrel hp hback ih =>
    rw [Chunk.size_code, Chunk.size_append, Chunk.size_code, Chunk.size_nil] at ht
    have hbody := ih (t := t - (c ++ j).length) (by omega) (Chunk.inRange_append.mp hr).1
    have hfill : Chunk.fill t (.code (c ++ j) :: (b ++ [.code p])) =
        c ++ j ++ Chunk.fill (t - (c ++ j).length) b ++ p := by
      rw [Chunk.fill, Chunk.fill_append, Chunk.fill, Chunk.fill, List.append_nil,
        List.append_assoc (c ++ j)]
    rw [hfill]
    refine (Branches.loop hc hj ?_ hbody hp ?_).cast (by omega)
    · rw [hrel, List.length_append, Chunk.fill_length]
    · have hlen : (c ++ j ++ Chunk.fill (t - (c ++ j).length) b ++ p).length =
          (c ++ j).length + Chunk.size b + p.length := by
        rw [List.length_append, List.length_append, Chunk.fill_length]
      rw [hback, hlen]
  | @ret e bytes hb =>
    rw [Chunk.size_code, Chunk.size_exit, Chunk.size_nil] at ht
    have hj := code_jmp hr.1
    rw [Chunk.fill, Chunk.fill, Chunk.fill, List.append_nil]
    have hlen : (jmpOpcode ++ emiti32 (((t - bytes.length : Nat) : Int) - 5)).length = 5 := by
      rw [List.length_append, emiti32_length]
      rfl
    refine (Branches.ret (t := t - bytes.length - 5) hb hj (by omega)).cast ?_
    rw [List.length_append, hlen]
    omega
  | @cons s ss a b _ _ iha ihb =>
    rw [Chunk.size_append] at ht
    rw [Chunk.inRange_append] at hr
    rw [Chunk.fill_append]
    have hlen : (Chunk.fill t a).length + (t - Chunk.size a) = t := by
      rw [Chunk.fill_length]
      omega
    exact (Branches.cons ((iha (by omega) hr.1).cast hlen.symm)
      (ihb (t := t - Chunk.size a) (by omega) hr.2)).cast hlen

/-- A sound body, when its last return is dropped. -/
theorem Laid.branches_end (h : Laid ss cs) (hsound : Stmt.lastSound ss = true)
    (ht : t = Chunk.size (Chunk.dropped cs)) (hr : Chunk.InRange t (Chunk.dropped cs)) :
    Branches t ss (Chunk.fill t (Chunk.dropped cs)) := by
  induction h generalizing t with
  | nil => exact .nil
  | expr hb hpos => exact (Laid.expr hb hpos).branches ht.ge hr
  | block _ ih =>
    rw [lastSound_single] at hsound
    exact .block (ih hsound ht hr)
  | @ite e body c j b cc rel hbody hc hj hrel _ =>
    rw [lastSound_single, Stmt.sound, Bool.not_eq_true'] at hsound
    have hlast := hbody.shape.last ((lastReturns_single body).trans hsound)
    rw [Chunk.dropped, hlast] at ht hr ⊢
    exact (Laid.ite (e := e) hbody hc hj hrel).branches ht.ge hr
  | @loop e body c j p b cc rel back hbody hc hj hrel hp hback _ =>
    have hlast := Chunk.dropped_code_last (a := .code (c ++ j) :: b) hp.length_pos
    rw [List.cons_append] at hlast
    rw [hlast] at ht hr ⊢
    exact (Laid.loop (e := e) hbody hc hj hrel hp hback).branches ht.ge hr
  | @ret e bytes hb =>
    have hdropped : Chunk.dropped [.code bytes, .exit] = [.code bytes] := rfl
    rw [hdropped, Chunk.size_code, Chunk.size_nil, Nat.add_zero] at ht
    rw [hdropped, Chunk.fill, Chunk.fill, List.append_nil, ht]
    exact .dropped hb
  | @cons s ss a b ha hb iha ihb =>
    rw [Stmt.lastSound] at hsound
    by_cases hzero : Chunk.size b = 0
    · -- no code behind what is dropped
      have hany : ¬ Stmt.anyCode ss = true := fun h => hb.shape.size.mp h hzero
      rw [if_neg hany, ← lastSound_single] at hsound
      rw [Chunk.dropped_append_of_size hzero] at ht hr ⊢
      rw [Chunk.size_append, hzero, Nat.add_zero] at ht
      rw [Chunk.inRange_append, ← ht, Nat.sub_self] at hr
      rw [Chunk.fill_append, ← ht, Nat.sub_self]
      have hlen : (Chunk.fill t (Chunk.dropped a)).length + 0 = t := by
        rw [Chunk.fill_length, ← ht, Nat.add_zero]
      exact (Branches.cons ((iha hsound ht hr.1).cast hlen.symm) (hb.branches hzero.le hr.2)).cast hlen
    · rw [if_pos (hb.shape.size.mpr hzero)] at hsound
      rw [Chunk.dropped_append hzero] at ht hr ⊢
      rw [Chunk.size_append] at ht
      rw [Chunk.inRange_append] at hr
      rw [Chunk.fill_append]
      have hlen : (Chunk.fill t a).length + (t - Chunk.size a) = t := by
        rw [Chunk.fill_length]
        omega
      exact (Branches.cons ((ha.branches (by omega) hr.1).cast hlen.symm)
        (ihb hsound (by omega) hr.2)).cast hlen

/-- From a body that is not sound a jump leads to where its code ended before its last return was
    dropped. -/
theorem Laid.strays (h : Laid ss cs) (hunsound : Stmt.lastSound ss = false)
    (ht : t = Chunk.size (Chunk.dropped cs)) (hr : Chunk.InRange t (Chunk.dropped cs)) :
    ∃ ts, Targets at_ (Chunk.fill t (Chunk.dropped cs)) ts ∧
      ((at_ + Chunk.size cs : Nat) : Int) ∈ ts := by
  induction h generalizing at_ t with
  | nil => cases hunsound
  | expr _ _ => cases hunsound
  | block _ ih =>
    rw [lastSound_single] at hunsound
    exact ih hunsound ht hr
  | @ite e body c j b cc rel hbody hc hj hrel ih =>
    rw [Chunk.dropped, Chunk.size_code] at ht
    rw [Chunk.dropped, Chunk.fill]
    have hrest : ∃ ts, Targets (at_ + (c ++ j).length)
        (Chunk.fill (t - (c ++ j).length) (Chunk.dropped b)) ts := by
      have hend : t - (c ++ j).length = Chunk.size (Chunk.dropped b) := by omega
      cases hsound : Stmt.lastSound [body] with
      | true =>
        obtain ⟨ts, hts, -⟩ := (hbody.branches_end hsound hend hr).targets
        exact ⟨ts, hts⟩
      | false =>
        obtain ⟨ts, hts, -⟩ := ih hsound hend hr
        exact ⟨ts, hts⟩
    obtain ⟨ts, hts⟩ := hrest
    refine ⟨_, (hc.targets_jump hj rfl).append hts, List.mem_append_left _ ?_⟩
    rw [List.mem_singleton, Chunk.size_code, hrel]
    omega
  | loop _ _ _ _ _ _ _ => cases hunsound
  | ret _ => cases hunsound
  | @cons s ss a b ha hb iha ihb =>
    rw [Stmt.lastSound] at hunsound
    by_cases hzero : Chunk.size b = 0
    · have hany : ¬ Stmt.anyCode ss = true := fun h => hb.shape.size.mp h hzero
      rw [if_neg hany, ← lastSound_single] at hunsound
      rw [Chunk.dropped_append_of_size hzero] at ht hr ⊢
      rw [Chunk.size_append, hzero, Nat.add_zero] at ht ⊢
      rw [Chunk.fill_append, Chunk.fill_of_size hzero, List.append_nil]
      exact iha hunsound ht (Chunk.inRange_append.mp hr).1
    · rw [if_pos (hb.shape.size.mpr hzero)] at hunsound
      rw [Chunk.dropped_append hzero] at ht hr ⊢
      rw [Chunk.size_append] at ht
      rw [Chunk.inRange_append] at hr
      rw [Chunk.fill_append]
      have hfront : ∃ ts, Targets at_ (Chunk.fill t a) ts ∧ _ :=
        (ha.branches (by omega) hr.1).targets
      obtain ⟨ts, hts, -⟩ := hfront
      obtain ⟨us, hus, hmem⟩ := @ihb (at_ + (Chunk.fill t a).length) _ hunsound (by omega) hr.2
      refine ⟨_, hts.append hus, List.mem_append_right _ ?_⟩
      rw [Chunk.size_append, ← Nat.add_assoc]
      rwa [Chunk.fill_length] at hmem

/-- When the last return is dropped, the branches lead where they should from a sound body only. -/
theorem Laid.branches_iff (h : Laid ss cs) (ht : t = Chunk.size (Chunk.dropped cs))
    (hr : Chunk.InRange t (Chunk.dropped cs)) :
    Branches t ss (Chunk.fill t (Chunk.dropped cs)) ↔ Stmt.lastSound ss = true := by
  refine ⟨fun hb => ?_, fun hsound => h.branches_end hsound ht hr⟩
  by_contra hne
  have hunsound : Stmt.lastSound ss = false := Bool.eq_false_iff.mpr hne
  have hstrays : ∃ ts, Targets 0 (Chunk.fill t (Chunk.dropped cs)) ts ∧ _ := h.strays hunsound ht hr
  have htargets : ∃ us, Targets 0 (Chunk.fill t (Chunk.dropped cs)) us ∧ _ := hb.targets
  obtain ⟨ts, hts, hmem⟩ := hstrays
  obtain ⟨us, hus, hle⟩ := htargets
  have hend := hle _ (hts.unique hus ▸ hmem)
  have hshort := h.shape.shorter (Stmt.lastReturns_of_unsound ss hunsound)
  rw [Chunk.fill_length] at hend
  omega

end Branches

/-! ## The rest of the function -/

theorem straight_flatMap {α : Type} {f : α → Bytes} {l : List α}
    (h : ∀ a ∈ l, Straight (f a)) : Straight (l.flatMap f) := by
  induction l with
  | nil => exact .nil
  | cons a l ih =>
    obtain ⟨ha, hl⟩ := List.forall_mem_cons.mp h
    rw [List.flatMap_cons]
    exact ha.append (ih hl)

theorem straight_prologue (used : BitVec 16) : Straight (prologueBytes used) := by
  have hframe : (frameCode used).distance = none := by
    unfold frameCode
    split
    · rfl
    · rfl
  have hsave : ∀ slot, (saveCode used slot).distance = none := fun slot => by
    unfold saveCode
    split
    · rfl
    · rfl
  have hmov : Straight (emitMovRr .rbp .rsp) := .of_code (code_movRr (by decide)) rfl
  have hslots : Straight (saveSlots.flatMap (saveBytes used)) :=
    straight_flatMap fun slot h => .of_code (code_slot used h) (hsave slot)
  have hpush : Straight (pushBytes .rbp) := .of_code (code_push .rbp) rfl
  exact (((hpush.append hmov).append (.of_code (code_frame used) hframe)).append hslots).append
    (.of_code (code_xor32Rr .rax .rax) rfl)

theorem straight_epilogue (used : BitVec 16) : Straight (epilogueBytes used) := by
  unfold epilogueBytes
  refine ((straight_flatMap fun slot h => ?_).append (.of_code code_leave rfl)).append
    (.of_code code_ret rfl)
  exact .of_code (code_load (saveSlots_int32 (List.mem_filter.mp h).1)) rfl

section Functions

variable {σ : Type} {rec : GenExpr} {s s' : GenState} {u : Unit} {n k : Nat}

theorem storeParams_le {regs : List X64Reg} (h : storeParams rec regs k s = .ok u s') :
    k ≤ regs.length := by
  induction regs generalizing k s with
  | nil =>
    cases k with
    | zero => exact Nat.zero_le _
    | succ k => cases h
  | cons r regs ih =>
    cases k with
    | zero => exact Nat.zero_le _
    | succ k =>
      obtain ⟨_, s₁, -, h⟩ := Run.bind_eq_ok.mp h
      obtain ⟨_, s₂, -, h⟩ := Run.bind_eq_ok.mp h
      exact Nat.succ_le_succ (ih h)

/-- A function that is written has as many parameters as there are registers. -/
theorem codegenFunc_le {value : Dest} (h : codegenFunc rec n value k s = .ok u s') :
    k ≤ sysvArgRegs.length := by
  rw [codegenFunc_eq] at h
  obtain ⟨_, s₁, h, -⟩ := Run.bind_eq_ok.mp h
  by_cases hk : k = 0
  · rw [hk]
    exact Nat.zero_le _
  · rw [functionTrees, if_pos hk] at h
    obtain ⟨⟨count, var⟩, s₂, -, h⟩ := Run.bind_eq_ok.mp h
    dsimp only at h
    split at h
    · cases h
    · obtain ⟨_, s₃, h, -⟩ := Run.bind_eq_ok.mp h
      exact storeParams_le h

/-- A call of the code, which is followed by a `ret`, does what a call of the function does. -/
def RunsAs (W : World σ) (ext : Reg → Machine → σ → Option (Machine × σ)) (params : List Word)
    (body : Stmt) (code : Bytes) : Prop :=
  ∀ i k m M x args r M' x', Called W.stack (7 + W.stmtWords body) params.length k m M args →
    W.runFunction i params body args (M, x) = .ok r (M', x') →
    ∃ m', Through ext code m x m' x' ∧ Returned W.stack k r m m' M'

variable {W : World σ} {ext : Reg → Machine → σ → Option (Machine × σ)} {L : Layout}
  {l rest : List Node} {params : List Word} {body : Stmt} {i : Nat}

/-- **Every branch leads where it should, and the function runs as the reference, exactly from a
    sound body.** The prologue with the stores of the parameters and the epilogue have no jumps. -/
theorem codegenFunc_branches {value : Dest} (hcalls : CallsAs W ext)
    (h : ReadsFunction L (enterFunction value s).cup l params body) (hs : s.range = l ++ rest)
    (hn : l.length < n) (hi : l.length ≤ i)
    (hok : codegenFunc (codegenExpr L n) i value params.length s = .ok u s') :
    ∃ used entry code, s'.buf = prologueBytes used ++ entry ++ code ++ epilogueBytes used ++ s.buf ∧
      Straight (prologueBytes used ++ entry) ∧ Straight (epilogueBytes used) ∧
      (Branches code.length [body] code ∧
        RunsAs W ext params body (prologueBytes used ++ entry ++ code ++ leaveBytes used) ↔
          body.sound = true) := by
  have hwrites := (Run.sat_of_ok hok).mp (codegenFunc_writes hcalls h (codegenFunc_le hok) hs hn hi)
  obtain ⟨used, entry, cs, hbuf, hfits, hcode⟩ := hwrites.code
  have hiff := hcode.laid.branches_iff rfl hfits
  rw [lastSound_single] at hiff
  rw [← List.append_assoc (prologueBytes used)] at hbuf
  refine ⟨used, entry, _, hbuf, (straight_prologue used).append hcode.straight,
    straight_epilogue used, ?_⟩
  rw [Chunk.fill_length]
  refine ⟨fun hb => hiff.mp hb.1, fun hsound => ⟨hiff.mpr hsound, ?_⟩⟩
  intro i k m M x args r M' x' hcall hf
  rw [List.append_assoc (prologueBytes used)]
  exact hcode.implements hfits hsound hcall hf

end Functions

theorem codegenFunc_branches_countdown : ∃ s' used entry code,
    codegenFunc (codegenExpr ⟨4096, 8192⟩ 32) 32 .init 1 countdownGen = .ok () s' ∧
      s'.buf = prologueBytes used ++ entry ++ code ++ epilogueBytes used ++ [] ∧
      Branches code.length [countdown] code ∧
      RunsAs adderWorld adderExt [8] countdown
        (prologueBytes used ++ entry ++ code ++ leaveBytes used) := by
  have hok : codegenFunc (codegenExpr ⟨4096, 8192⟩ 32) 32 .init 1 countdownGen =
      .ok () (codegenFunc (codegenExpr ⟨4096, 8192⟩ 32) 32 .init 1 countdownGen).state := by
    decide +kernel
  have hrange : countdownGen.range = countdownNodes ++ [] := rfl
  obtain ⟨used, entry, code, hbuf, -, -, hiff⟩ := codegenFunc_branches adder_callsAs
    (reads_countdown ⟨4096, 8192⟩ (enterFunction .init countdownGen).cup) hrange (by decide)
    (by decide) hok
  exact ⟨_, used, entry, code, hok, hbuf, hiff.mpr rfl⟩

/-! ### A branch that leads too far -/

/-- The store of the parameter of `guardReturn`. -/
def guardReturnEntry : Bytes := emitMovImm64 .rax 8 ++ emitStore .rax 0 .rdi

/-- The code of its body: the jump over the `return` is 10 bytes long, and 5 bytes are left. -/
def guardReturnCode : Bytes :=
  emitLoadRaxAbs 8 ++ emitTestRr .rax .rax ++ (jccOpcode .e ++ emiti32 10) ++ emitMovConst .rax 1

theorem guardReturn_targets :
    Targets 0 guardReturnCode [(guardReturnCode.length : Int) + 5] := by
  have hload : Straight (emitLoadRaxAbs 8) := .of_code (code_loadRaxAbs 8) rfl
  have htest : Straight (emitTestRr .rax .rax) := .of_code (code_testRr .rax .rax) rfl
  have hmov : Straight (emitMovConst .rax 1) := .of_code (code_movConst .rax (by decide)) rfl
  have hjcc : Code (jccOpcode .e ++ emiti32 10) [.jcc .e 10] := code_jcc .e ⟨by decide, by decide⟩
  exact ((hload.append htest).targets_jump hjcc rfl).append hmov.targets

theorem guardReturn_not_branches : ∃ s',
    codegenFunc (codegenExpr ⟨4096, 8192⟩ 16) 16 .init 1 guardReturnGen = .ok () s' ∧
      s'.buf = prologueBytes 0 ++ guardReturnEntry ++ guardReturnCode ++ epilogueBytes 0 ∧
      Targets 0 guardReturnCode [(guardReturnCode.length : Int) + 5] ∧
      ¬ Branches guardReturnCode.length [guardReturn] guardReturnCode := by
  refine ⟨(codegenFunc (codegenExpr ⟨4096, 8192⟩ 16) 16 .init 1 guardReturnGen).state, ?_, ?_,
    guardReturn_targets, fun hb => ?_⟩
  · decide +kernel
  · decide +kernel
  · have htargets : ∃ ts, Targets 0 guardReturnCode ts ∧ _ := hb.targets
    obtain ⟨ts, hts, hle⟩ := htargets
    have hend := hle _ (hts.unique guardReturn_targets ▸ List.mem_cons_self)
    omega

end Cup
