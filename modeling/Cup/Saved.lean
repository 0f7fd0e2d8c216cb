/-
  The registers that a generated function saves (`codegen_func`).

  The prologue is written with every save slot, and patched when the body is known. The finished
  function is `prologueBytes used ++ body ++ epilogueBytes used`, where `used` are the registers
  that the body took with `pick_saved`. `function_saves`: it saves and reloads what the body
  writes, in slots that the stack of the body stays below.
-/
import Cup.Generated

namespace Cup

open Lib (Stop Run Res)
open Lib.X64

/-! ## The prologue and the epilogue -/

/-- The `sub rsp`, or the NOP over it. -/
def frameBytes (used : BitVec 16) : Bytes :=
  if csSaveOrder.any (hasReg used) then emitAluImm 5 .rsp frameSize else nop4

def frameCode (used : BitVec 16) : Instr :=
  if csSaveOrder.any (hasReg used) then .aluImm .sub .rsp 48 else .nop

/-- The save of a register, or the NOP over it. -/
def saveBytes (used : BitVec 16) (slot : X64Reg × Int) : Bytes :=
  if hasReg used slot.1 then emitStore .rbp slot.2 slot.1 else nop4

def saveCode (used : BitVec 16) (slot : X64Reg × Int) : Instr :=
  if hasReg used slot.1 then .store .rbp slot.2 slot.1 else .nop

/-- The prologue that saves the registers `used`. -/
def prologueBytes (used : BitVec 16) : Bytes :=
  pushBytes .rbp ++ emitMovRr .rbp .rsp ++ frameBytes used ++ saveSlots.flatMap (saveBytes used) ++
    emitXor32Rr .rax .rax

def prologueCode (used : BitVec 16) : List Instr :=
  [.push .rbp, .mov .rbp .rsp, frameCode used] ++ saveSlots.map (saveCode used) ++
    [.xor32 .rax .rax]

/-- The epilogue that reloads the registers `used`. -/
def epilogueBytes (used : BitVec 16) : Bytes :=
  (saveSlots.filter fun (r, _) => hasReg used r).flatMap (fun (r, disp) => emitLoad r .rbp disp) ++
    emitLeave ++ emitRet

def epilogueCode (used : BitVec 16) : List Instr :=
  (saveSlots.filter fun (r, _) => hasReg used r).map (fun (r, disp) => .load r .rbp disp) ++
    [.leave, .ret]

/-- A displacement of a slot: the slots are the five words below RBP. -/
theorem saveSlots_disp {slot : X64Reg × Int} (h : slot ∈ saveSlots) :
    slot.2 = -8 ∨ slot.2 = -16 ∨ slot.2 = -24 ∨ slot.2 = -32 ∨ slot.2 = -40 := by
  revert slot
  decide

theorem saveSlots_int32 {slot : X64Reg × Int} (h : slot ∈ saveSlots) : Int32 slot.2 := by
  unfold Int32
  rcases saveSlots_disp h with h | h | h | h | h <;> omega

theorem saveSlots_length {slot : X64Reg × Int} (h : slot ∈ saveSlots) :
    (emitStore .rbp slot.2 slot.1).length = saveSlotSize := by
  revert slot
  decide

theorem code_frame (used : BitVec 16) : Code (frameBytes used) [frameCode used] := by
  unfold frameBytes frameCode
  split
  · exact code_aluImm (by decide) rfl (by unfold Int32; decide)
  · exact code_nop4

theorem code_slot (used : BitVec 16) {slot : X64Reg × Int} (h : slot ∈ saveSlots) :
    Code (saveBytes used slot) [saveCode used slot] := by
  unfold saveBytes saveCode
  split
  · exact code_store (saveSlots_int32 h)
  · exact code_nop4

/-- Bytes of single instructions, as instructions with their bytes. -/
theorem exists_ops {α : Type} {l : List α} {bytes : α → Bytes} {instr : α → Instr}
    (h : ∀ a ∈ l, Code (bytes a) [instr a]) :
    ∃ ops, assemble ops = l.flatMap bytes ∧ ops.map Op.instr = l.map instr := by
  induction l with
  | nil => exact ⟨[], rfl, rfl⟩
  | cons a l ih =>
    obtain ⟨ops, hb, hi⟩ := ih fun b hb => h b (List.mem_cons_of_mem _ hb)
    refine ⟨⟨instr a, bytes a, h a List.mem_cons_self⟩ :: ops, ?_, ?_⟩
    · rw [assemble_cons, hb, List.flatMap_cons]
    · rw [List.map_cons, hi, List.map_cons]

theorem prologue_ops (used : BitVec 16) :
    ∃ ops, assemble ops = prologueBytes used ∧ ops.map Op.instr = prologueCode used := by
  have hslot : ∀ slot ∈ saveSlots, Code (saveBytes used slot) [saveCode used slot] :=
    fun _ h => code_slot used h
  obtain ⟨ops, hb, hi⟩ := exists_ops hslot
  have hmov : Reg.rbp ≠ Reg.rsp := by decide
  refine ⟨[⟨_, _, code_push .rbp⟩, ⟨_, _, code_movRr hmov⟩, ⟨_, _, code_frame used⟩] ++ ops ++
    [⟨_, _, code_xor32Rr .rax .rax⟩], ?_, ?_⟩
  · simp only [assemble_append, assemble_cons, assemble_nil, hb, prologueBytes, List.append_nil,
      List.append_assoc]
  · simp only [List.map_append, hi, prologueCode]
    rfl

theorem code_prologue (used : BitVec 16) : Code (prologueBytes used) (prologueCode used) := by
  obtain ⟨ops, hb, hi⟩ := prologue_ops used
  rw [← hb, ← hi]
  exact assemble_code ops

theorem code_epilogue (used : BitVec 16) : Code (epilogueBytes used) (epilogueCode used) := by
  have hload : ∀ slot ∈ saveSlots.filter fun (r, _) => hasReg used r,
      Code (emitLoad slot.1 .rbp slot.2) [.load slot.1 .rbp slot.2] := fun slot h =>
    code_load (saveSlots_int32 (List.mem_filter.mp h).1)
  obtain ⟨ops, hb, hi⟩ := exists_ops hload
  have hloads := assemble_code ops
  rw [hb, hi] at hloads
  have hend : Code (emitLeave ++ emitRet) [.leave, .ret] := code_leave.append code_ret
  have h := hloads.append hend
  rwa [← List.append_assoc] at h

/-! ## The machine behind the prologue -/

/-- The words of the frame. -/
def frameWords (used : BitVec 16) : Nat := if csSaveOrder.any (hasReg used) then 6 else 0

section Exec

variable {σ : Type} (ext : Reg → Machine → σ → Option (Machine × σ))

/-- The saves change the memory only. -/
theorem exec_slots (used : BitVec 16) (slots : List (X64Reg × Int)) (m : Machine) (x : σ) :
    ∃ m', exec ext (slots.map (saveCode used)) m x = some (m', x) ∧ m'.regs = m.regs := by
  induction slots generalizing m with
  | nil => exact ⟨m, rfl, rfl⟩
  | cons slot slots ih =>
    have hstep : ∃ m₁, (saveCode used slot).step m = some m₁ ∧ m₁.regs = m.regs := by
      unfold saveCode
      split
      · exact ⟨_, rfl, rfl⟩
      · exact ⟨_, rfl, rfl⟩
    obtain ⟨m₁, h₁, hr₁⟩ := hstep
    obtain ⟨m', h', hr'⟩ := ih m₁
    refine ⟨m', ?_, hr'.trans hr₁⟩
    rw [List.map_cons, exec_cons (run_of_step h₁), h']

theorem step_frame (used : BitVec 16) (m : Machine) : ∃ m', (frameCode used).step m = some m' ∧
    m'.regs .rsp = m.regs .rsp - BitVec.ofNat 64 (8 * frameWords used) ∧
    m'.regs .rbp = m.regs .rbp := by
  unfold frameCode frameWords
  split
  · exact ⟨_, rfl, rfl, rfl⟩
  · exact ⟨m, rfl, (BitVec.sub_zero _).symm, rfl⟩

/-- Behind the prologue, RBP is one word below the return address, and RSP below that by the
    frame. -/
theorem exec_prologue (used : BitVec 16) (m : Machine) (x : σ) :
    ∃ m', exec ext (prologueCode used) m x = some (m', x) ∧
      m'.regs .rbp = m.regs .rsp - 8 ∧
      m'.regs .rsp = m'.regs .rbp - BitVec.ofNat 64 (8 * frameWords used) := by
  have hpush : ∃ m₁, (Instr.push .rbp).step m = some m₁ ∧ m₁.regs .rsp = m.regs .rsp - 8 :=
    ⟨_, rfl, rfl⟩
  obtain ⟨m₁, h₁, hsp₁⟩ := hpush
  have hmov : ∃ m₂, (Instr.mov .rbp .rsp).step m₁ = some m₂ ∧ m₂.regs .rbp = m₁.regs .rsp ∧
    m₂.regs .rsp = m₁.regs .rsp := ⟨_, rfl, rfl, rfl⟩
  obtain ⟨m₂, h₂, hbp₂, hsp₂⟩ := hmov
  obtain ⟨m₃, h₃, hsp₃, hbp₃⟩ := step_frame used m₂
  obtain ⟨m₄, h₄, hr₄⟩ := exec_slots ext used saveSlots m₃ x
  have hxor : ∃ m₅, (Instr.xor32 .rax .rax).step m₄ = some m₅ ∧ m₅.regs .rbp = m₄.regs .rbp ∧
    m₅.regs .rsp = m₄.regs .rsp := ⟨_, rfl, rfl, rfl⟩
  obtain ⟨m₅, h₅, hbp₅, hsp₅⟩ := hxor
  have hbp : m₅.regs .rbp = m.regs .rsp - 8 := by rw [hbp₅, hr₄, hbp₃, hbp₂, hsp₁]
  refine ⟨m₅, ?_, hbp, ?_⟩
  · have hcode : prologueCode used = .push .rbp :: .mov .rbp .rsp :: frameCode used ::
        (saveSlots.map (saveCode used) ++ [.xor32 .rax .rax]) := rfl
    rw [hcode, exec_cons (run_of_step h₁), exec_cons (run_of_step h₂), exec_cons (run_of_step h₃),
      exec_append h₄, exec_cons (run_of_step h₅), exec_nil]
  · rw [hsp₅, hr₄, hsp₃, hsp₂, hbp, hsp₁]

end Exec

/-- With the frame or without it, RSP is aligned behind the prologue. -/
theorem aligned_frame {sp : Word} (h : sp.toNat % 16 = 8) (used : BitVec 16) :
    (sp - 8 - BitVec.ofNat 64 (8 * frameWords used)).toNat % 16 = 0 := by
  unfold frameWords
  split
  · bv_omega
  · bv_omega

/-- Two words of memory overlap. -/
def Overlap (a b : Word) : Prop := ∃ x, Lib.X64.dist a x < 8 ∧ Lib.X64.dist b x < 8

/-- The word below `n` words of the frame and the stack is below every slot. -/
theorem not_overlap_slot {base : Word} {n : Nat} {slot : X64Reg × Int} (h : slot ∈ saveSlots)
    (hn : 6 ≤ n) (hfit : 8 * (n + 1) ≤ 2 ^ 64) :
    ¬ Overlap (base - BitVec.ofNat 64 (8 * n) - 8) (base + BitVec.ofInt 64 slot.2) := by
  rintro ⟨x, hx, hslot⟩
  unfold Lib.X64.dist at hx hslot
  rcases saveSlots_disp h with h | h | h | h | h <;> rw [h] at hslot
  · have hd : BitVec.ofInt 64 (-8) = 0 - 8 := by decide
    rw [hd] at hslot
    bv_omega
  · have hd : BitVec.ofInt 64 (-16) = 0 - 16 := by decide
    rw [hd] at hslot
    bv_omega
  · have hd : BitVec.ofInt 64 (-24) = 0 - 24 := by decide
    rw [hd] at hslot
    bv_omega
  · have hd : BitVec.ofInt 64 (-32) = 0 - 32 := by decide
    rw [hd] at hslot
    bv_omega
  · have hd : BitVec.ofInt 64 (-40) = 0 - 40 := by decide
    rw [hd] at hslot
    bv_omega

/-! ## Patches -/

/-- Bytes of the buffer are replaced by as many others. -/
theorem patchBytes_eq {s : GenState} {at_ : Nat} {a old b bytes : Bytes}
    (hbuf : s.buf = a ++ old ++ b) (hat : at_ = a.length) (hlen : bytes.length = old.length) :
    patchBytes at_ bytes s = .ok () { s with buf := a ++ bytes ++ b } := by
  have hle : at_ + bytes.length ≤ s.buf.length := by
    rw [hbuf, hat, hlen, List.length_append, List.length_append]
    omega
  have htake : (a ++ old ++ b).take a.length = a := by rw [List.append_assoc, List.take_left]
  have hdrop : (a ++ old ++ b).drop (a.length + bytes.length) = b :=
    List.drop_left' (by rw [List.length_append, hlen])
  rw [patchBytes, Run.get_bind, if_pos hle, Run.set_apply, hbuf, hat, htake, hdrop]

/-- The save of a register is one whole instruction, as long as a NOP. -/
theorem saveBytes_length (used : BitVec 16) {slot : X64Reg × Int} (h : slot ∈ saveSlots) :
    (saveBytes used slot).length = saveSlotSize := by
  unfold saveBytes
  split
  · exact saveSlots_length h
  · rfl

/-- The saves as they are emitted: all of them. -/
abbrev allUsed : BitVec 16 := BitVec.allOnes 16

theorem hasReg_all (r : X64Reg) : hasReg allUsed r = true := by
  have h := r.num_lt
  simp [hasReg, h]

/-- The saves of unused registers become NOPs. -/
theorem patchSlots_eq {s : GenState} {slotsAt k : Nat} {slots : List (X64Reg × Int)}
    {a b : Bytes} (hslots : ∀ slot ∈ slots, slot ∈ saveSlots)
    (hbuf : s.buf = a ++ slots.flatMap (saveBytes allUsed) ++ b)
    (hat : slotsAt + k * saveSlotSize = a.length) :
    patchSlots slotsAt (slots.map Prod.fst) k s =
      .ok () { s with buf := a ++ slots.flatMap (saveBytes s.fn.csUsed) ++ b } := by
  induction slots generalizing s k a with
  | nil =>
    rw [List.flatMap_nil] at hbuf ⊢
    rw [← hbuf]
    rfl
  | cons slot slots ih =>
    have hslot := hslots slot List.mem_cons_self
    have hrest := fun slot h => hslots slot (List.mem_cons_of_mem _ h)
    have hall : saveBytes allUsed slot = emitStore .rbp slot.2 slot.1 := if_pos (hasReg_all _)
    have hlen := saveBytes_length s.fn.csUsed hslot
    rw [List.flatMap_cons, ← List.append_assoc, hall] at hbuf
    -- the slot of the register, and the slots behind it
    have hnext : ∀ {s₁ : GenState}, s₁ = { s with buf := a ++ saveBytes s.fn.csUsed slot ++
        (slots.flatMap (saveBytes allUsed) ++ b) } →
        patchSlots slotsAt (slots.map Prod.fst) (k + 1) s₁ = .ok ()
          { s with buf := a ++ (slot :: slots).flatMap (saveBytes s.fn.csUsed) ++ b } := by
      rintro s₁ rfl
      have hbuf₁ : a ++ saveBytes s.fn.csUsed slot ++ (slots.flatMap (saveBytes allUsed) ++ b) =
          a ++ saveBytes s.fn.csUsed slot ++ slots.flatMap (saveBytes allUsed) ++ b :=
        (List.append_assoc _ _ _).symm
      have hat₁ : slotsAt + (k + 1) * saveSlotSize = (a ++ saveBytes s.fn.csUsed slot).length := by
        rw [List.length_append, hlen, ← hat]
        unfold saveSlotSize
        omega
      rw [List.flatMap_cons, ← List.append_assoc a]
      exact ih hrest hbuf₁ hat₁
    rw [List.map_cons, patchSlots, Run.get_bind]
    dsimp only
    rw [List.append_assoc] at hbuf
    by_cases hused : hasReg s.fn.csUsed slot.1 = true
    · rw [if_neg (not_not.mpr hused)]
      refine hnext ?_
      have hkept : saveBytes s.fn.csUsed slot = emitStore .rbp slot.2 slot.1 := if_pos hused
      rw [hkept, ← hbuf]
    · have hnop : emitNop4 (slotsAt + k * saveSlotSize) s = .ok () _ :=
        patchBytes_eq hbuf hat (saveSlots_length hslot).symm
      have hnop' : saveBytes s.fn.csUsed slot = nop4 := if_neg hused
      rw [if_pos hused, Run.bind_of_ok hnop]
      refine hnext ?_
      rw [hnop']

/-! ## Returns -/

/-- The body of a function behind `pre`, on its way to the finished one: the returns jump to
    places of it, or behind it. -/
structure Finishing (pre : Bytes) (used : BitVec 16) (s : GenState) (ops : List Op) : Prop where
  buf : s.buf = pre ++ assemble ops
  words : ∃ k, walk 0 ops = some k
  leads : Leads (fun t => ((assemble ops).length : Int) ≤ t) 0 ops
  writes : ∀ o ∈ ops, ∀ r, o.instr.dest = some r → MayWrite [] used r

theorem Finishing.of_emitted {s s' : GenState} {ops : List Op} {rets : List Nat}
    (h : Emitted [] 0 0 s s' ops rets) : Finishing s.buf s'.fn.csUsed s' ops where
  buf := h.buf
  words := ⟨0, h.words⟩
  leads := h.closed.mono fun _ h => h.elim
  writes := h.writes

/-- A return behind which the code ends is its last instruction. -/
theorem JumpSite.last {start p : Nat} {ops : List Op} (h : JumpSite start ops p)
    (hp : p + 4 = start + (assemble ops).length) :
    ∃ a rel, ∃ h : Int32 rel, ops = a ++ [jmpOp rel h] := by
  obtain ⟨a, rel, hr, b, rfl, rfl⟩ := h
  cases b with
  | nil => exact ⟨a, rel, hr, rfl⟩
  | cons o b =>
    have := o.code.length_pos
    rw [assemble_append, assemble_cons, assemble_cons, List.length_append, List.length_append,
      List.length_append, jmpOp_length] at hp
    omega

theorem JumpSite.dropLast {start p : Nat} {a : List Op} {o : Op} (h : JumpSite start (a ++ [o]) p)
    (hp : p + 4 ≤ start + (assemble a).length) : JumpSite start a p := by
  obtain ⟨pre, rel, hr, post, he, rfl⟩ := h
  rcases List.eq_nil_or_concat post with rfl | ⟨post, o', rfl⟩
  · obtain ⟨rfl, -⟩ := List.append_inj' he rfl
    omega
  · rw [List.concat_eq_append, ← List.cons_append, ← List.append_assoc] at he
    obtain ⟨rfl, -⟩ := List.append_inj' he rfl
    exact ⟨pre, rel, hr, post, rfl, rfl⟩

/-- The last return is dropped, or nothing is. -/
theorem dropLastReturn_ok {pre : Bytes} {used : BitVec 16} {s s' : GenState} {ops : List Op}
    (hf : Finishing pre used s ops) (hsites : ∀ p ∈ s.returns, JumpSite pre.length ops p)
    (h : dropLastReturn s = .ok () s') : s'.fn = s.fn ∧ ∃ ops', Finishing pre used s' ops' ∧
      ∀ p ∈ s'.returns, p + 4 ≤ s'.buf.length → JumpSite pre.length ops' p := by
  have h := (Res.ok.inj h).2
  dsimp only at h
  split at h
  · obtain rfl := h
    exact ⟨rfl, ops, hf, fun p hp _ => hsites p hp⟩
  · rename_i ptr hlast
    split at h
    · rename_i hptr
      obtain rfl := h
      have hmem : ptr ∈ s.returns := List.mem_of_getLast? hlast
      have hend : ptr + 4 = pre.length + (assemble ops).length := by
        rw [hptr.1, hf.buf, List.length_append]
      obtain ⟨a, rel, hr, rfl⟩ := (hsites ptr hmem).last hend
      obtain ⟨k, hk⟩ := hf.words
      obtain ⟨d, hd⟩ := walk_left hk
      have htake : s.buf.take (s.buf.length - 5) = pre ++ assemble a := by
        rw [hf.buf, assemble_append, ← List.append_assoc]
        refine List.take_left' ?_
        simp only [List.length_append, assemble_cons, assemble_nil, List.append_nil, jmpOp_length]
        omega
      refine ⟨rfl, a, ⟨htake, ⟨d, hd⟩, ?_, ?_⟩, ?_⟩
      · refine (hf.leads.take hd).mono fun t ht => ?_
        rcases ht with ht | ht
        · have ht : ((assemble (a ++ [jmpOp rel hr])).length : Int) ≤ t := ht
          rw [assemble_append, List.length_append] at ht
          push_cast at ht
          omega
        · exact ht
      · exact fun o ho => hf.writes o (List.mem_append_left _ ho)
      · intro p hp hle
        refine (hsites p (List.dropLast_subset _ hp)).dropLast ?_
        rw [← List.length_append, ← htake]
        exact hle
    · obtain rfl := h
      exact ⟨rfl, ops, hf, fun p hp _ => hsites p hp⟩

theorem replaces_jmp {rel rel' : Int} (h : Int32 rel) (h' : Int32 rel') :
    Replaces (jmpOp rel h) (jmpOp rel' h') where
  words _ := rfl
  length := (jmpOp_length ..).trans (jmpOp_length ..).symm

/-- A jump with another distance is still a jump, and the others are where they were. -/
theorem JumpSite.replace {start p : Nat} {a b : List Op} {rel rel' : Int} {h : Int32 rel}
    (h' : Int32 rel') (hs : JumpSite start (a ++ jmpOp rel h :: b) p) :
    JumpSite start (a ++ jmpOp rel' h' :: b) p := by
  have hlen := (replaces_jmp h h').length
  obtain ⟨pre, r, hr, post, he, rfl⟩ := hs
  rcases List.append_eq_append_iff.mp he with ⟨c, rfl, hc⟩ | ⟨c, rfl, hc⟩
  · cases c with
    | nil => exact ⟨a, rel', h', b, rfl, by simp⟩
    | cons o c =>
      obtain ⟨rfl, rfl⟩ := List.cons.inj hc
      refine ⟨a ++ jmpOp rel' h' :: c, r, hr, post, by simp, ?_⟩
      simp only [assemble_append, assemble_cons, List.length_append, hlen]
  · cases c with
    | nil => exact ⟨pre, rel', h', b, by simp, rfl⟩
    | cons o c =>
      obtain ⟨rfl, rfl⟩ := List.cons.inj hc
      exact ⟨pre, r, hr, c ++ jmpOp rel' h' :: b, by simp, rfl⟩

theorem patchRel_le {patch target : Nat} {s s' : GenState}
    (h : patchRel patch target s = .ok () s') : patch + 4 ≤ s.buf.length := by
  unfold patchRel at h
  split at h
  · cases h
  · unfold patchBytes at h
    rw [Run.get_bind] at h
    split at h
    · rename_i hle
      rwa [emiti32_length] at hle
    · cases h

/-- A return jumps to the end of the body. -/
theorem patchReturn_ok {pre : Bytes} {used : BitVec 16} {s s' : GenState} {ops : List Op}
    {ptr : Nat} (hf : Finishing pre used s ops)
    (hsite : ptr + 4 ≤ s.buf.length → JumpSite pre.length ops ptr)
    (h : patchRel ptr s.buf.length s = .ok () s') :
    s'.fn = s.fn ∧ s'.buf.length = s.buf.length ∧ ∃ ops', Finishing pre used s' ops' ∧
      ∀ p, JumpSite pre.length ops p → JumpSite pre.length ops' p := by
  obtain ⟨a, rel, hr, b, rfl, rfl⟩ := hsite (patchRel_le h)
  have hbuf : s.buf = pre ++ assemble a ++ jmpOpcode ++ emiti32 rel ++ assemble b := by
    rw [hf.buf]
    simp only [assemble_append, assemble_cons, jmpOp, List.append_assoc]
  have hpatch : pre.length + (assemble a).length + 1 =
      (pre ++ assemble a ++ jmpOpcode).length := by
    simp only [List.length_append]
    rfl
  obtain ⟨hr', rfl⟩ := patchRel_ok h hbuf hpatch
  have hrep := replaces_jmp hr hr'
  have hlen := hrep.length
  have hsize : ∀ o : Op, (assemble (a ++ o :: b)).length =
      (assemble a).length + o.bytes.length + (assemble b).length := by
    intro o
    simp only [assemble_append, assemble_cons, List.length_append, Nat.add_assoc]
  refine ⟨rfl, ?_, a ++ jmpOp _ hr' :: b, ⟨?_, ?_, ?_, ?_⟩, fun p hp => hp.replace hr'⟩
  · rw [hbuf]
    simp only [List.length_append, emiti32_length]
  · simp only [assemble_append, assemble_cons, jmpOp, List.append_assoc]
  · obtain ⟨k, hk⟩ := hf.words
    exact ⟨k, (hrep.walk a b 0).trans hk⟩
  · rw [hsize, hlen, ← hsize]
    refine hf.leads.replace hrep fun rel' hrel' => ?_
    have hbuflen : s.buf.length = pre.length + (assemble a).length + 5 + (assemble b).length := by
      rw [hf.buf, List.length_append, hsize, jmpOp_length]
      omega
    rw [← Option.some.inj hrel', hsize]
    simp only [jmpOp_length]
    push_cast
    omega
  · intro o ho r hd
    rcases List.mem_append.mp ho with ho | ho
    · exact hf.writes o (List.mem_append_left _ ho) r hd
    · rcases List.mem_cons.mp ho with rfl | ho
      · cases hd
      · exact hf.writes o (List.mem_append_right _ (List.mem_cons_of_mem _ ho)) r hd

/-- All returns jump to the end of the body. -/
theorem patchReturns_ok {pre : Bytes} {used : BitVec 16} {s s' : GenState} {ops : List Op}
    {ptrs : List Nat} (hf : Finishing pre used s ops)
    (hsites : ∀ p ∈ ptrs, p + 4 ≤ s.buf.length → JumpSite pre.length ops p)
    (h : patchReturns ptrs s = .ok () s') :
    s'.fn = s.fn ∧ s'.buf.length = s.buf.length ∧ ∃ ops', Finishing pre used s' ops' ∧
      ∀ p, JumpSite pre.length ops p → JumpSite pre.length ops' p := by
  induction ptrs generalizing s' with
  | nil =>
    obtain rfl := (Res.ok.inj h).2
    exact ⟨rfl, rfl, ops, hf, fun _ hp => hp⟩
  | cons ptr ptrs ih =>
    unfold patchReturns at h
    obtain ⟨⟨⟩, s₁, h₁, h⟩ := Run.bind_eq_ok.mp h
    obtain ⟨hfn₁, hlen₁, ops₁, hf₁, hs₁⟩ := ih (fun p hp => hsites p (List.mem_cons_of_mem _ hp)) h₁
    have hsite : ptr + 4 ≤ s₁.buf.length → JumpSite pre.length ops₁ ptr := by
      intro hle
      rw [hlen₁] at hle
      exact hs₁ _ (hsites ptr List.mem_cons_self hle)
    obtain ⟨hfn₂, hlen₂, ops₂, hf₂, hs₂⟩ := patchReturn_ok hf₁ hsite h
    exact ⟨hfn₂.trans hfn₁, hlen₂.trans hlen₁, ops₂, hf₂, fun p hp => hs₂ p (hs₁ p hp)⟩

/-! ## The finished function -/

theorem frameBytes_length (used : BitVec 16) : (frameBytes used).length = 4 := by
  unfold frameBytes
  split <;> rfl

theorem slots_length (used : BitVec 16) {slots : List (X64Reg × Int)}
    (h : ∀ slot ∈ slots, slot ∈ saveSlots) :
    (slots.flatMap (saveBytes used)).length = slots.length * saveSlotSize := by
  induction slots with
  | nil => simp
  | cons slot slots ih =>
    have ih := ih fun slot hs => h slot (List.mem_cons_of_mem _ hs)
    rw [List.flatMap_cons, List.length_append, saveBytes_length used (h slot List.mem_cons_self), ih,
      List.length_cons, Nat.succ_mul, Nat.add_comm]

theorem prologueBytes_length (used : BitVec 16) : (prologueBytes used).length = 30 := by
  simp only [prologueBytes, List.length_append, frameBytes_length,
    slots_length used fun _ h => h]
  rfl

/-- The prologue is written with all of its saves. -/
theorem prologue_ok (s : GenState) : prologue s = .ok (s.buf.length + 4, s.buf.length + 8)
    { s with buf := s.buf ++ prologueBytes allUsed, fn := { s.fn with depth := 0 } } := by
  have hframe : frameBytes allUsed = emitAluImm 5 .rsp frameSize := rfl
  have hslots : saveSlots.flatMap (saveBytes allUsed) =
      saveSlots.flatMap fun (r, disp) => emitStore .rbp disp r :=
    List.flatMap_congr fun slot _ => if_pos (hasReg_all slot.1)
  have hsub : (s.buf ++ pushBytes .rbp ++ emitMovRr .rbp .rsp).length = s.buf.length + 4 := by
    simp only [List.length_append]
    rfl
  have hslot : (s.buf ++ pushBytes .rbp ++ emitMovRr .rbp .rsp ++
      emitAluImm 5 .rsp frameSize).length = s.buf.length + 8 := by
    simp only [List.length_append]
    rfl
  simp only [prologue, emitPush, emit, Run.bind_apply, Run.modify_apply, Run.get_apply,
    Run.pure_apply, hsub, hslot]
  simp only [prologueBytes, hframe, hslots, List.append_assoc]

/-- `codegen_func` writes NOPs over what its prologue does not need. -/
theorem finishFunction_eq {pre tail : Bytes} {t : GenState}
    (hbuf : t.buf = pre ++ prologueBytes allUsed ++ tail) :
    finishFunction (pre.length + 4) (pre.length + 8) t = (do
      dropLastReturn
      patchReturns (← Run.get).returns
      epilogue) { t with buf := pre ++ prologueBytes t.fn.csUsed ++ tail } := by
  have hbuf₁ : t.buf = pre ++ pushBytes .rbp ++ emitMovRr .rbp .rsp ++ frameBytes allUsed ++
      saveSlots.flatMap (saveBytes allUsed) ++ (emitXor32Rr .rax .rax ++ tail) := by
    rw [hbuf, prologueBytes]
    simp only [List.append_assoc]
  have hat₁ : pre.length + 8 + 0 * saveSlotSize = (pre ++ pushBytes .rbp ++ emitMovRr .rbp .rsp ++
      frameBytes allUsed).length := by
    simp only [List.length_append]
    rfl
  have hslots : patchSlots (pre.length + 8) csSaveOrder 0 t = .ok () _ :=
    patchSlots_eq (fun _ h => h) hbuf₁ hat₁
  rw [finishFunction, Run.bind_of_ok hslots, Run.get_bind]
  dsimp only
  by_cases hany : csSaveOrder.any (hasReg t.fn.csUsed) = true
  · have hbytes : frameBytes t.fn.csUsed = frameBytes allUsed := by
      rw [frameBytes, if_pos hany]
      rfl
    rw [if_neg (not_not.mpr hany), prologueBytes, hbytes]
    simp only [List.append_assoc]
  · have hat₂ : pre.length + 4 = (pre ++ pushBytes .rbp ++ emitMovRr .rbp .rsp).length := by
      simp only [List.length_append]
      rfl
    have hlen₂ : nop4.length = (frameBytes allUsed).length := rfl
    have hnop : emitNop4 (pre.length + 4) { t with
        buf := pre ++ pushBytes .rbp ++ emitMovRr .rbp .rsp ++ frameBytes allUsed ++
          saveSlots.flatMap (saveBytes t.fn.csUsed) ++ (emitXor32Rr .rax .rax ++ tail) } =
        .ok () _ :=
      patchBytes_eq (List.append_assoc _ _ _) hat₂ hlen₂
    have hbytes : frameBytes t.fn.csUsed = nop4 := if_neg hany
    rw [if_pos hany, Run.bind_of_ok hnop, prologueBytes, hbytes]
    simp only [List.append_assoc]

/-- What `codegen_func` does to the code behind the trees. -/
theorem finishFunction_ok {pre : Bytes} {t t' : GenState} {ops : List Op}
    (hf : Finishing (pre ++ prologueBytes allUsed) t.fn.csUsed t ops)
    (hsites : ∀ p ∈ t.returns, JumpSite (pre ++ prologueBytes allUsed).length ops p)
    (h : finishFunction (pre.length + 4) (pre.length + 8) t = .ok () t') :
    ∃ ops' t₁, Finishing (pre ++ prologueBytes t.fn.csUsed) t.fn.csUsed t₁ ops' ∧
      t'.buf = t₁.buf ++ epilogueBytes t.fn.csUsed := by
  rw [finishFunction_eq hf.buf] at h
  have hlen : (pre ++ prologueBytes allUsed).length =
      (pre ++ prologueBytes t.fn.csUsed).length := by
    rw [List.length_append, List.length_append, prologueBytes_length, prologueBytes_length]
  rw [hlen] at hsites
  have hf₂ : Finishing (pre ++ prologueBytes t.fn.csUsed) t.fn.csUsed
      { t with buf := pre ++ prologueBytes t.fn.csUsed ++ assemble ops } ops :=
    ⟨rfl, hf.words, hf.leads, hf.writes⟩
  obtain ⟨⟨⟩, t₃, h₃, h⟩ := Run.bind_eq_ok.mp h
  obtain ⟨hfn₃, ops₃, hf₃, hsites₃⟩ := dropLastReturn_ok hf₂ hsites h₃
  rw [Run.get_bind] at h
  obtain ⟨⟨⟩, t₄, h₄, h⟩ := Run.bind_eq_ok.mp h
  obtain ⟨hfn₄, -, ops₄, hf₄, -⟩ := patchReturns_ok hf₃ hsites₃ h₄
  have hfn : t₄.fn = t.fn := by rw [hfn₄, hfn₃]
  refine ⟨ops₄, t₄, hf₄, ?_⟩
  have h := (Res.ok.inj h).2
  rw [← h, ← hfn, epilogueBytes]
  simp only [List.append_assoc]

/-! ## What a function saves -/

/-- `codegen_func` in front of its first instruction. -/
def enterFunction (value : Dest) (s : GenState) : GenState :=
  { s with
    fn := {}
    cup := { s.cup with nodes := { s.cup.nodes with payload := .value s.buf.length } }
    reallocs := s.reallocs ++ [(value, 0)] }

/-- From `s`, `codegen_func` writes the prologue, to `s₁`, and the parameters and the body, to
    `t`. The frame and the saves can be patched from the offsets `subAt` and `slotsAt` on. -/
structure WritesBody (rec : GenExpr) (n : Nat) (value : Dest) (argCount : Nat)
    (s s₁ t : GenState) (subAt slotsAt : Nat) : Prop where
  entered : prologue (enterFunction value s) = .ok (subAt, slotsAt) s₁
  trees : functionTrees rec n argCount { s₁ with returns := [] } = .ok () t

/-- The steps of `codegen_func`. -/
theorem codegenFunc_inv {rec : GenExpr} {n argCount : Nat} {value : Dest} {s s' : GenState}
    (h : codegenFunc rec n value argCount s = .ok () s') :
    ∃ s₁ t t', WritesBody rec n value argCount s s₁ t (s.buf.length + 4) (s.buf.length + 8) ∧
      finishFunction (s.buf.length + 4) (s.buf.length + 8) t = .ok () t' ∧
      s'.range = t.range ∧ s'.buf = t'.buf.drop s.buf.length ++ t'.buf.take s.buf.length := by
  unfold codegenFunc at h
  rw [Run.get_bind, Run.modify_bind] at h
  have hp := prologue_ok (enterFunction value s)
  obtain ⟨ats, s₁, h₁, h⟩ := Run.bind_eq_ok.mp h
  have h₁ : prologue (enterFunction value s) = .ok ats s₁ := h₁
  obtain ⟨rfl, -⟩ := Res.ok.inj (hp.symm.trans h₁)
  dsimp only at h
  rw [Run.modify_bind] at h
  obtain ⟨⟨⟩, t, ht, h⟩ := Run.bind_eq_ok.mp h
  obtain ⟨⟨⟩, t', hfin, h⟩ := Run.bind_eq_ok.mp h
  rw [Run.modify_bind] at h
  refine ⟨s₁, t, t', ⟨h₁, ht⟩, hfin, ?_, ?_⟩
  · have hr := (still_moveToFront _).range_of_ok h
    have hr : s'.range = t'.range := hr
    have hr' : t'.range = t.range := (still_finishFunction _ _).range_of_ok hfin
    rw [hr, hr']
  · unfold moveToFront at h
    split at h
    · rename_i hzero
      obtain rfl := (Res.ok.inj h).2
      rw [hzero, List.drop_zero, List.take_zero, List.append_nil]
    · obtain rfl := (Res.ok.inj h).2
      rfl

/-- The function is its prologue, the body and its epilogue, in front of the code that was there. -/
theorem codegenFunc_code {L : Layout} {n m argCount : Nat} {value : Dest} {s s' : GenState}
    (h : codegenFunc (codegenExpr L n) m value argCount s = .ok () s') (hno : NoDefinition s s') :
    ∃ s₁ t t' ops, WritesBody (codegenExpr L n) m value argCount s s₁ t (s.buf.length + 4)
        (s.buf.length + 8) ∧
      Finishing (s.buf ++ prologueBytes t.fn.csUsed) t.fn.csUsed t' ops ∧
      s'.buf = prologueBytes t.fn.csUsed ++ assemble ops ++ epilogueBytes t.fn.csUsed ++ s.buf := by
  obtain ⟨s₁, t, t', hb, hfin, hrange, hbuf⟩ := codegenFunc_inv h
  have htrees : Gens [] 0 0 (functionTrees (codegenExpr L n) m argCount) fun _ => True :=
    gens_functionTrees (gensTree_codegenExpr L n) m argCount
  have hs₁ := (Res.ok.inj ((prologue_ok _).symm.trans hb.entered)).2
  have hbuf₁ : s₁.buf = s.buf ++ prologueBytes allUsed := by rw [← hs₁]; rfl
  have hrange₁ : s₁.range = s.range := by rw [← hs₁]; rfl
  have hno₁ : NoDefinition { s₁ with returns := [] } t := by
    intro taken htaken
    refine hno taken ?_
    rw [hrange, ← hrange₁]
    exact htaken
  obtain ⟨ops, rets, he⟩ := (htrees.of_ok hb.trees).1.emitted hno₁
  have hf := Finishing.of_emitted he
  have hf : Finishing s₁.buf t.fn.csUsed t ops := hf
  have hsites : ∀ p ∈ t.returns, JumpSite s₁.buf.length ops p := by
    have hrets : t.returns = [] ++ rets := he.returns
    rw [hrets]
    exact he.sites
  rw [hbuf₁] at hf hsites
  obtain ⟨ops', t₁, hf', hbuf'⟩ := finishFunction_ok hf hsites hfin
  refine ⟨s₁, t, t₁, ops', hb, hf', ?_⟩
  rw [hbuf, hbuf', hf'.buf]
  simp only [List.append_assoc, List.drop_left, List.take_left]

/-- At the offset `at_` of the buffer there is a whole instruction, as long as a NOP. -/
def PatchSite (buf : Bytes) (at_ : Nat) (i : Instr) : Prop :=
  ∃ a bytes b, buf = a ++ bytes ++ b ∧ a.length = at_ ∧ bytes.length = nop4.length ∧ Code bytes [i]

/-- A function with the body `body` saves the registers `used` and reloads them. -/
structure SavesRegisters (used : BitVec 16) (body : Bytes) : Prop where
  /-- The body writes no other register of the save order. -/
  writes : ∃ code, Code body code ∧
    ∀ i ∈ code, ∀ r ∈ csSaveOrder, i.dest = some r → hasReg used r = true
  /-- The prologue stores these registers in their slots, and has NOPs in place of the others. -/
  prologue : Code (prologueBytes used) (prologueCode used)
  /-- The epilogue reloads them from their slots. -/
  epilogue : Code (epilogueBytes used) (epilogueCode used)
  /-- There is a frame when a slot is used. -/
  frame : (∃ r ∈ csSaveOrder, hasReg used r = true) → frameCode used = .aluImm .sub .rsp frameSize
  /-- Behind the prologue RSP is aligned, and wherever the body comes, what it pushes does not
      overlap a slot that is used. -/
  stack : ∀ {σ : Type} (ext : Reg → Machine → σ → Option (Machine × σ)), KeepsStack ext →
    ∀ (front back : Bytes) (m : Machine) (x : σ), (m.regs .rsp).toNat % 16 = 8 →
    ∃ m', Runs ext (front ++ prologueBytes used ++ body ++ back) ⟨front.length, m, x⟩
        ⟨(front ++ prologueBytes used).length, m', x⟩ ∧
      (m'.regs .rsp).toNat % 16 = 0 ∧
      ∀ c, RunsIn ext (front ++ prologueBytes used ++ body ++ back)
          (front ++ prologueBytes used).length (front ++ prologueBytes used ++ body).length
          ⟨(front ++ prologueBytes used).length, m', x⟩ c →
        c.pc < (front ++ prologueBytes used ++ body).length → 8 * (body.length + 7) ≤ 2 ^ 64 →
        ∀ slot ∈ saveSlots, hasReg used slot.1 = true →
          ¬ Overlap (c.machine.regs .rsp - 8) (m'.addr .rbp slot.2)

theorem length_le_assemble (ops : List Op) : ops.length ≤ (assemble ops).length := by
  induction ops with
  | nil => exact Nat.le_refl _
  | cons o ops ih =>
    have := o.code.length_pos
    rw [assemble_cons, List.length_cons, List.length_append]
    omega

/-- A finished body and the prologue and the epilogue of its registers belong together. -/
theorem Finishing.saves {pre : Bytes} {used : BitVec 16} {s : GenState} {ops : List Op}
    (hf : Finishing pre used s ops) : SavesRegisters used (assemble ops) where
  writes := by
    refine ⟨_, assemble_code ops, fun i hi r hr hd => ?_⟩
    obtain ⟨o, ho, rfl⟩ := List.mem_map.mp hi
    have hsaved : r.calleeSaved = true ∧ r ≠ .rsp := by
      revert hr
      cases r <;> decide
    rcases hf.writes o ho r hd hsaved.1 with h | h | h
    · exact absurd h hsaved.2
    · cases h
    · exact h
  prologue := code_prologue used
  epilogue := code_epilogue used
  frame := by
    rintro ⟨r, hr, hu⟩
    exact if_pos (List.any_eq_true.mpr ⟨r, hr, hu⟩)
  stack := by
    intro σ ext hext front back m x hsp
    obtain ⟨pops, hbytes, hcode⟩ := prologue_ops used
    obtain ⟨m', hexec, hbp', hsp'⟩ := exec_prologue ext used m x
    refine ⟨m', ?_, ?_, ?_⟩
    · rw [← hcode] at hexec
      have h := Runs.of_exec hexec front (assemble ops ++ back)
      rw [hbytes] at h
      rwa [← List.append_assoc] at h
    · rw [hsp', hbp']
      exact aligned_frame hsp used
    · intro c hc hlt hfit slot hslot hu
      obtain ⟨k, hk⟩ := hf.words
      have hend : (front ++ prologueBytes used ++ assemble ops).length =
          (front ++ prologueBytes used).length + (assemble ops).length := List.length_append
      rw [hend] at hc hlt
      obtain ⟨n, e, -, hp, hcsp, -⟩ := place_of_runs hext hk hf.leads hc hlt
      have he := hp.words_le
      have hlen := length_le_assemble ops
      have hframe : frameWords used = 6 := by
        have hmem : slot.1 ∈ csSaveOrder := (List.of_mem_zip hslot).1
        exact if_pos (List.any_eq_true.mpr ⟨slot.1, hmem, hu⟩)
      have hword : c.machine.regs .rsp = m'.regs .rbp - BitVec.ofNat 64 (8 * (6 + e)) := by
        rw [hcsp, hsp', hframe, Nat.mul_add, BitVec.ofNat_add]
        bv_omega
      rw [hword]
      exact not_overlap_slot hslot (by omega) (by omega)

/-- The function that `codegen_func` writes from `s` to `s'`: behind the prologue the generator
    is in `s₁`, and behind the body in `t`, where `cs_used` has the registers to save. -/
structure WritesFunction (rec : GenExpr) (n : Nat) (value : Dest) (argCount : Nat)
    (s s' s₁ t : GenState) (body : Bytes) : Prop where
  written : ∃ subAt slotsAt, WritesBody rec n value argCount s s₁ t subAt slotsAt ∧
    PatchSite s₁.buf subAt (.aluImm .sub .rsp frameSize) ∧
    ∀ k r disp, saveSlots[k]? = some (r, disp) →
      PatchSite s₁.buf (slotsAt + k * saveSlotSize) (.store .rbp disp r)
  code : s'.buf = prologueBytes t.fn.csUsed ++ body ++ epilogueBytes t.fn.csUsed ++ s.buf
  saves : SavesRegisters t.fn.csUsed body

/-- **A function without nested definitions saves the registers that its body writes.** -/
theorem function_saves {L : Layout} {n m argCount : Nat} {value : Dest} {s s' : GenState}
    (h : codegenFunc (codegenExpr L n) m value argCount s = .ok () s') (hno : NoDefinition s s') :
    ∃ s₁ t body, WritesFunction (codegenExpr L n) m value argCount s s' s₁ t body := by
  obtain ⟨s₁, t, t', ops, hb, hf, hbuf⟩ := codegenFunc_code h hno
  have hbuf₁ : s₁.buf = s.buf ++ prologueBytes allUsed := by
    rw [← (Res.ok.inj ((prologue_ok _).symm.trans hb.entered)).2]
    rfl
  refine ⟨s₁, t, assemble ops, ⟨_, _, hb, ?_, ?_⟩, hbuf, hf.saves⟩
  · refine ⟨s.buf ++ pushBytes .rbp ++ emitMovRr .rbp .rsp, frameBytes allUsed,
      saveSlots.flatMap (saveBytes allUsed) ++ emitXor32Rr .rax .rax, ?_, ?_,
      frameBytes_length _, code_frame allUsed⟩
    · rw [hbuf₁, prologueBytes]
      simp only [List.append_assoc]
    · simp only [List.length_append]
      rfl
  · intro k r disp hslot
    obtain ⟨hk, hget⟩ := List.getElem?_eq_some_iff.mp hslot
    have hmem : (r, disp) ∈ saveSlots := List.mem_of_getElem? hslot
    have hsplit : saveSlots = saveSlots.take k ++ (r, disp) :: saveSlots.drop (k + 1) := by
      rw [← hget, ← List.drop_eq_getElem_cons hk, List.take_append_drop]
    have htake := slots_length allUsed fun slot h => List.mem_of_mem_take (i := k) h
    have hcode := code_slot allUsed hmem
    rw [saveCode, if_pos (hasReg_all _)] at hcode
    refine ⟨s.buf ++ pushBytes .rbp ++ emitMovRr .rbp .rsp ++ frameBytes allUsed ++
      (saveSlots.take k).flatMap (saveBytes allUsed), saveBytes allUsed (r, disp),
      (saveSlots.drop (k + 1)).flatMap (saveBytes allUsed) ++ emitXor32Rr .rax .rax, ?_, ?_,
      saveBytes_length _ hmem, hcode⟩
    · have hflat := congrArg (List.flatMap (saveBytes allUsed)) hsplit
      rw [List.flatMap_append, List.flatMap_cons] at hflat
      rw [hbuf₁, prologueBytes, hflat]
      simp only [List.append_assoc]
    · rw [List.length_append, htake, List.length_take, Nat.min_eq_left hk.le]
      simp only [List.length_append, frameBytes_length]
      have hpush : (pushBytes .rbp).length = 1 := rfl
      have hmov : (emitMovRr .rbp .rsp).length = 3 := rfl
      omega

/-- The nodes of `1 + (2 + 3)`: the left value goes to a saved register. -/
def sumOfThree : GenState where
  cup := {}
  range := [.tok ⟨.tAdd, 3, 1⟩, .tok ⟨.tNumber, 1, 1⟩, .value 1, .tok ⟨.tAdd, 8, 1⟩,
    .tok ⟨.tNumber, 6, 1⟩, .value 2, .tok ⟨.tNumber, 10, 1⟩, .value 3]

theorem function_saves_sumOfThree : ∃ s',
    codegenFunc (codegenExpr ⟨4096, 8192⟩ 3) 3 .init 0 sumOfThree = .ok () s' ∧
    ∃ s₁ t body, WritesFunction (codegenExpr ⟨4096, 8192⟩ 3) 3 .init 0 sumOfThree s' s₁ t body := by
  have hok : codegenFunc (codegenExpr ⟨4096, 8192⟩ 3) 3 .init 0 sumOfThree =
      .ok () (codegenFunc (codegenExpr ⟨4096, 8192⟩ 3) 3 .init 0 sumOfThree).state := by
    decide +kernel
  have hrange : (codegenFunc (codegenExpr ⟨4096, 8192⟩ 3) 3 .init 0 sumOfThree).state.range =
      [] := by decide +kernel
  refine ⟨_, hok, function_saves hok fun taken htaken => ?_⟩
  rw [hrange, List.append_nil] at htaken
  rw [← htaken]
  decide

end Cup
