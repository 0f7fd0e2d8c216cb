/-
  The frame of a generated function (`codegen_func`, `src/codegen/x64codegen.c`), on a machine.

  Called with `k` free bytes of stack, the prologue has RBP at the word below the return address
  and each register that is saved in its slot below that (`Framed`). The words of the frame are
  above the stack of the body, which hands them back. So the epilogue reloads what the registers
  were at the call.
-/
import Cup.Operation
import Cup.Saved

namespace Cup

open Lib (Stop Run Res)
open Lib.X64

/-! ## Slots -/

/-- The distance of a slot below RBP. -/
theorem saveSlots_distance {slot : X64Reg × Int} (h : slot ∈ saveSlots) :
    8 ≤ slot.2.natAbs ∧ slot.2.natAbs ≤ 40 ∧
      BitVec.ofInt 64 slot.2 = -BitVec.ofNat 64 slot.2.natAbs := by
  rcases saveSlots_disp h with h | h | h | h | h <;> rw [h] <;> decide

theorem saveSlots_saved {slot : X64Reg × Int} (h : slot ∈ saveSlots) :
    slot.1 ≠ .rsp ∧ slot.1 ≠ .rbp ∧ slot.1 ≠ .rax := by
  revert slot
  decide

/-- The registers that a function hands back. -/
theorem calleeSaved_cases {r : X64Reg} (h : r.calleeSaved = true) :
    r = .rsp ∨ r = .rbp ∨ ∃ slot ∈ saveSlots, slot.1 = r := by
  revert h
  cases r <;> decide

section Frame

variable {σ : Type} {ext : Reg → Machine → σ → Option (Machine × σ)} {S : Stack} {k : Nat}
  {used : BitVec 16} {slot : X64Reg × Int} {slots : List (X64Reg × Int)} {m₀ m : Machine} {x : σ}
  {M : Mem}

theorem top_sub_nat {j : Nat} (h : j ≤ k) : S.top k - BitVec.ofNat 64 j = S.top (k - j) := by
  obtain ⟨i, rfl⟩ : ∃ i, k = i + j := ⟨k - j, by omega⟩
  rw [Nat.add_sub_cancel, Stack.top, Stack.top, BitVec.ofNat_add, ← BitVec.add_assoc,
    BitVec.add_sub_cancel]

/-- Where a slot is. -/
theorem addr_slot (hslot : slot ∈ saveSlots) (hbp : m.regs .rbp = S.top (k - 8)) (hk : 48 ≤ k) :
    m.addr .rbp slot.2 = S.top (k - 8 - slot.2.natAbs) := by
  obtain ⟨-, hle, hdisp⟩ := saveSlots_distance hslot
  rw [Machine.addr, hbp, hdisp, ← BitVec.sub_eq_add_neg, top_sub_nat (by omega)]

variable (ext) (used) (x) in
/-- A register is saved, or nothing is done. -/
theorem save_through (hslot : slot ∈ saveSlots) (hbp : m.regs .rbp = S.top (k - 8)) (hk : 48 ≤ k)
    (hsize : k ≤ S.size) : ∃ m', Through ext (saveBytes used slot) m x m' x ∧ m'.regs = m.regs ∧
      S.Agree m'.mem m.mem ∧ S.Keeps (k - slot.2.natAbs) m.mem m'.mem ∧
      (hasReg used slot.1 = true →
        m'.mem.load (S.top (k - 8 - slot.2.natAbs)) = m.regs slot.1) := by
  obtain ⟨hge, hle, -⟩ := saveSlots_distance hslot
  have hcode := code_slot used hslot
  unfold saveCode at hcode
  by_cases hu : hasReg used slot.1 = true
  · rw [if_pos hu] at hcode
    refine ⟨_, .of_step hcode rfl, rfl, ?_⟩
    rw [addr_slot hslot hbp hk]
    obtain ⟨hagree, hkeeps⟩ := S.store_top (m := m.mem) (v := m.regs slot.1)
      (k := k - 8 - slot.2.natAbs) (by omega)
    have htop : k - 8 - slot.2.natAbs + 8 = k - slot.2.natAbs := by omega
    rw [htop] at hkeeps
    exact ⟨hagree, hkeeps, fun _ => Mem.load_store _ _ _⟩
  · rw [if_neg hu] at hcode
    exact ⟨m, .of_step hcode rfl, rfl, fun _ _ => rfl, .refl, fun h => absurd h hu⟩

variable (ext) (used) (x) in
/-- The registers are saved from the top down, so that a slot keeps its word. -/
theorem saves_through (hslots : ∀ slot ∈ slots, slot ∈ saveSlots)
    (horder : slots.Pairwise fun a b => a.2.natAbs + 8 ≤ b.2.natAbs)
    (hbp : m.regs .rbp = S.top (k - 8)) (hk : 48 ≤ k) (hsize : k ≤ S.size) :
    ∃ m', Through ext (slots.flatMap (saveBytes used)) m x m' x ∧ m'.regs = m.regs ∧
      S.Agree m'.mem m.mem ∧
      (∀ j, (∀ slot ∈ slots, k - slot.2.natAbs ≤ j) → S.Keeps j m.mem m'.mem) ∧
      ∀ slot ∈ slots, hasReg used slot.1 = true →
        m'.mem.load (S.top (k - 8 - slot.2.natAbs)) = m.regs slot.1 := by
  induction slots generalizing m with
  | nil => exact ⟨m, .nil, rfl, fun _ _ => rfl, fun _ _ => .refl, fun _ h => by cases h⟩
  | cons slot slots ih =>
    obtain ⟨hslot, hrest⟩ := List.forall_mem_cons.mp hslots
    obtain ⟨hbelow, horder⟩ := List.pairwise_cons.mp horder
    obtain ⟨hge, hle, -⟩ := saveSlots_distance hslot
    obtain ⟨m₁, hrun₁, hregs₁, hagree₁, hkeeps₁, hload₁⟩ :=
      save_through ext used x hslot hbp hk hsize
    have hbp₁ : m₁.regs .rbp = S.top (k - 8) := by rw [hregs₁, hbp]
    obtain ⟨m', hrun, hregs, hagree, hkeeps, hload⟩ := ih hrest horder hbp₁
    refine ⟨m', ?_, hregs.trans hregs₁, hagree.trans hagree₁, fun j hj => ?_, ?_⟩
    · rw [List.flatMap_cons]
      exact hrun₁.append hrun
    · obtain ⟨hj₁, hj⟩ := List.forall_mem_cons.mp hj
      exact (hkeeps₁.mono hj₁).trans (hkeeps j hj)
    · refine List.forall_mem_cons.mpr ⟨fun hu => ?_, fun slot' h' hu => ?_⟩
      · have hkept : S.Keeps (k - 8 - slot.2.natAbs) m₁.mem m'.mem := by
          refine hkeeps _ fun slot' h' => ?_
          have := hbelow slot' h'
          omega
        rw [hkept.load (by omega), hload₁ hu]
      · rw [hload slot' h' hu, hregs₁]

variable (ext) (used) (x) in
/-- The frame is below RBP, or there is none. -/
theorem frame_through (hsp : m.regs .rsp = S.top (k - 8)) (hk : 56 ≤ k) :
    ∃ m', Through ext (frameBytes used) m x m' x ∧ m'.mem = m.mem ∧
      m'.regs .rsp = S.top (k - 8 - 8 * frameWords used) ∧
      ∀ r, r ≠ .rsp → m'.regs r = m.regs r := by
  have hcode := code_frame used
  unfold frameCode at hcode
  unfold frameWords
  by_cases hany : csSaveOrder.any (hasReg used) = true
  · rw [if_pos hany] at hcode ⊢
    have himm : BitVec.ofNat 64 (8 * 6) = BitVec.ofInt 64 48 := by decide
    refine ⟨_, .of_step hcode rfl, rfl, ?_, fun r hr => Machine.set_regs_of_ne hr⟩
    rw [← top_sub_nat (j := 8 * 6) (by omega), ← hsp, himm]
    exact Machine.set_regs_self m .rsp _
  · rw [if_neg hany] at hcode ⊢
    exact ⟨m, .of_step hcode rfl, rfl, hsp, fun _ _ => rfl⟩

/-! ## The prologue and the epilogue -/

variable (S k used) in
/-- In the frame are the registers as they were in `m₀`. -/
structure Framed (m₀ m : Machine) : Prop where
  base : m.regs .rbp = S.top (k - 8)
  caller : m.mem.load (S.top (k - 8)) = m₀.regs .rbp
  saved : ∀ slot ∈ saveSlots, hasReg used slot.1 = true →
    m.mem.load (S.top (k - 8 - slot.2.natAbs)) = m₀.regs slot.1

/-- Code that keeps RBP and the words above its stack keeps the frame. -/
theorem Framed.keeps {m' : Machine} (h : Framed S k used m₀ m) (hbp : m'.regs .rbp = m.regs .rbp)
    (hmem : S.Keeps (k - 8 - 8 * frameWords used) m.mem m'.mem) (hk : 56 ≤ k) (hsize : k ≤ S.size) :
    Framed S k used m₀ m' where
  base := hbp.trans h.base
  caller := by
    rw [(hmem.mono (Nat.sub_le _ _)).load (by omega), h.caller]
  saved slot hslot hu := by
    obtain ⟨hge, hle, -⟩ := saveSlots_distance hslot
    have hframe : frameWords used = 6 :=
      if_pos (List.any_eq_true.mpr ⟨slot.1, (List.of_mem_zip hslot).1, hu⟩)
    rw [hframe] at hmem
    rw [(hmem.mono (by omega)).load (by omega), h.saved slot hslot hu]

variable (ext) (used) (x) in
theorem prologue_through (hm : InStep S k m M) (hk : 56 ≤ k) (hsize : k ≤ S.size) :
    ∃ m', Through ext (prologueBytes used) m x m' x ∧
      InStep S (k - 8 - 8 * frameWords used) m' M ∧ S.Keeps k m.mem m'.mem ∧
      Framed S k used m m' ∧ ∀ r, r ≠ .rax → r ≠ .rbp → r ≠ .rsp → m'.regs r = m.regs r := by
  -- RBP is pushed
  have hpush : ∃ m₁, Through ext (pushBytes .rbp) m x m₁ x ∧ m₁.regs .rsp = S.top (k - 8) ∧
      m₁.mem = m.mem.store (S.top (k - 8)) (m.regs .rbp) ∧
      ∀ r, r ≠ .rsp → m₁.regs r = m.regs r := by
    have hsp : m.regs .rsp - 8 = S.top (k - 8) := by rw [hm.top, Stack.top_sub (by omega)]
    rw [← hsp]
    exact ⟨_, .of_step (code_push .rbp) rfl, Machine.set_regs_self m .rsp _, rfl,
      fun r hr => Machine.set_regs_of_ne hr⟩
  obtain ⟨m₁, hrun₁, hsp₁, hmem₁, hregs₁⟩ := hpush
  obtain ⟨hagree₁, hkeeps₁⟩ := S.store_top (m := m.mem) (v := m.regs .rbp) (k := k - 8) (by omega)
  have hk8 : k - 8 + 8 = k := by omega
  rw [← hmem₁, hk8] at hkeeps₁
  rw [← hmem₁] at hagree₁
  have hmov : SetsTo ext (emitMovRr .rbp .rsp) [.rbp] .rbp _ := setsTo_movRr .rbp .rsp
  obtain ⟨m₂, hrun₂, hsets₂⟩ := hmov.sets m₁ x
  have hbp₂ : m₂.regs .rbp = S.top (k - 8) := hsets₂.value.trans hsp₁
  have hsp₂ : m₂.regs .rsp = S.top (k - 8) := (hsets₂.others .rsp (by decide)).trans hsp₁
  obtain ⟨m₃, hrun₃, hmem₃, hsp₃, hregs₃⟩ := frame_through ext used x hsp₂ hk
  have hbp₃ : m₃.regs .rbp = S.top (k - 8) := (hregs₃ .rbp (by decide)).trans hbp₂
  obtain ⟨m₄, hrun₄, hregs₄, hagree₄, hkeeps₄, hsaved₄⟩ :=
    saves_through ext used x (fun slot (h : slot ∈ saveSlots) => h) (by decide) hbp₃ (by omega) hsize
  have hxor : SetsTo ext (emitXor32Rr .rax .rax) [.rax] .rax _ := setsTo_xorSelf .rax
  obtain ⟨m₅, hrun₅, hsets₅⟩ := hxor.sets m₄ x
  have hmem₃' : m₃.mem = m₁.mem := hmem₃.trans hsets₂.mem
  rw [hmem₃'] at hagree₄ hkeeps₄
  have hothers : ∀ r, r ≠ .rax → r ≠ .rbp → r ≠ .rsp → m₅.regs r = m.regs r := by
    intro r hrax hrbp hrsp
    rw [hsets₅.others r (by simpa using hrax), hregs₄, hregs₃ r hrsp,
      hsets₂.others r (by simpa using hrbp), hregs₁ r hrsp]
  refine ⟨m₅, ?_, ⟨?_, ?_⟩, ?_, ⟨?_, ?_, ?_⟩, hothers⟩
  · exact (((hrun₁.append hrun₂).append hrun₃).append hrun₄).append hrun₅
  · rw [hsets₅.others .rsp (by decide), hregs₄, hsp₃]
  · rw [hsets₅.mem]
    exact hagree₄.trans (hagree₁.trans hm.agree)
  · rw [hsets₅.mem]
    exact hkeeps₁.trans (hkeeps₄ k fun _ _ => Nat.sub_le _ _)
  · rw [hsets₅.others .rbp (by decide), hregs₄, hbp₃]
  · have hkept : S.Keeps (k - 8) m₁.mem m₄.mem := by
      refine hkeeps₄ _ fun slot hslot => ?_
      have := (saveSlots_distance hslot).1
      omega
    rw [hsets₅.mem, hkept.load (by omega), hmem₁, Mem.load_store]
  · intro slot hslot hu
    obtain ⟨hrsp, hrbp, -⟩ := saveSlots_saved hslot
    rw [hsets₅.mem, hsaved₄ slot hslot hu, hregs₃ _ hrsp, hsets₂.others _ (by simpa using hrbp),
      hregs₁ _ hrsp]

variable (ext) (x) in
/-- The registers are reloaded. -/
theorem loads_through (hslots : ∀ slot ∈ slots, slot ∈ saveSlots)
    (hnodup : (slots.map Prod.fst).Nodup) (hbp : m.regs .rbp = S.top (k - 8)) (hk : 48 ≤ k) :
    ∃ m', Through ext (slots.flatMap fun (r, disp) => emitLoad r .rbp disp) m x m' x ∧
      m'.mem = m.mem ∧
      (∀ slot ∈ slots, m'.regs slot.1 = m.mem.load (S.top (k - 8 - slot.2.natAbs))) ∧
      ∀ r, (∀ slot ∈ slots, slot.1 ≠ r) → m'.regs r = m.regs r := by
  induction slots generalizing m with
  | nil => exact ⟨m, .nil, rfl, fun _ h => (by cases h), fun _ _ => rfl⟩
  | cons slot slots ih =>
    obtain ⟨hslot, hrest⟩ := List.forall_mem_cons.mp hslots
    obtain ⟨hnotin, hnodup⟩ := List.nodup_cons.mp hnodup
    have hne : ∀ slot' ∈ slots, slot'.1 ≠ slot.1 := fun slot' h he =>
      hnotin (he ▸ List.mem_map_of_mem h)
    have hbp₁ : (m.set slot.1 (m.mem.load (m.addr .rbp slot.2))).regs .rbp = S.top (k - 8) :=
      (Machine.set_regs_of_ne (saveSlots_saved hslot).2.1.symm).trans hbp
    obtain ⟨m', hrun, hmem, hload, hregs⟩ := ih hrest hnodup hbp₁
    have hstep : Through ext (emitLoad slot.1 .rbp slot.2) m x
        (m.set slot.1 (m.mem.load (m.addr .rbp slot.2))) x :=
      .of_step (code_load (saveSlots_int32 hslot)) rfl
    refine ⟨m', ?_, hmem, ?_, fun r hr => ?_⟩
    · rw [List.flatMap_cons]
      exact hstep.append hrun
    · refine List.forall_mem_cons.mpr ⟨?_, hload⟩
      rw [hregs _ hne, Machine.set_regs_self, addr_slot hslot hbp hk]
    · obtain ⟨hr₁, hr⟩ := List.forall_mem_cons.mp hr
      rw [hregs r hr, Machine.set_regs_of_ne hr₁.symm]

/-- The epilogue in front of its `ret`. -/
def leaveBytes (used : BitVec 16) : Bytes :=
  (saveSlots.filter fun (r, _) => hasReg used r).flatMap (fun (r, disp) => emitLoad r .rbp disp) ++
    emitLeave

variable (ext) (x) in
theorem epilogue_through (h : Framed S k used m₀ m) (hk : 56 ≤ k) :
    ∃ m', Through ext (leaveBytes used) m x m' x ∧ m'.mem = m.mem ∧ m'.regs .rsp = S.top k ∧
      m'.regs .rbp = m₀.regs .rbp ∧
      (∀ slot ∈ saveSlots, hasReg used slot.1 = true → m'.regs slot.1 = m₀.regs slot.1) ∧
      ∀ r, r ≠ .rsp → r ≠ .rbp → (∀ slot ∈ saveSlots, hasReg used slot.1 = true → slot.1 ≠ r) →
        m'.regs r = m.regs r := by
  have hnodup : ((saveSlots.filter fun (r, _) => hasReg used r).map Prod.fst).Nodup :=
    (List.filter_sublist.map Prod.fst).nodup (by decide)
  have hfilter : ∀ slot ∈ saveSlots.filter fun (r, _) => hasReg used r,
      slot ∈ saveSlots ∧ hasReg used slot.1 = true := fun _ h => List.mem_filter.mp h
  obtain ⟨m₁, hrun₁, hmem₁, hload₁, hregs₁⟩ :=
    loads_through ext x (fun slot hs => (hfilter slot hs).1) hnodup h.base (by omega)
  have hbp₁ : m₁.regs .rbp = S.top (k - 8) :=
    (hregs₁ .rbp fun slot hs => (saveSlots_saved (hfilter slot hs).1).2.1).trans h.base
  have hleave : Through ext emitLeave m₁ x ((m₁.set .rsp (m₁.regs .rbp + 8)).set .rbp
      (m₁.mem.load (m₁.regs .rbp))) x := .of_step code_leave rfl
  have hk8 : k - 8 + 8 = k := by omega
  refine ⟨_, hrun₁.append hleave, hmem₁, ?_, ?_, fun slot hslot hu => ?_, fun r hsp hbp hr => ?_⟩
  · rw [Machine.set_regs_of_ne (by decide), Machine.set_regs_self, hbp₁, Stack.top_add, hk8]
  · rw [Machine.set_regs_self, hbp₁, hmem₁, h.caller]
  · obtain ⟨hrsp, hrbp, -⟩ := saveSlots_saved hslot
    rw [Machine.set_regs_of_ne hrbp, Machine.set_regs_of_ne hrsp,
      hload₁ slot (List.mem_filter.mpr ⟨hslot, hu⟩), h.saved slot hslot hu]
  · rw [Machine.set_regs_of_ne hbp, Machine.set_regs_of_ne hsp]
    exact hregs₁ r fun slot hs => hr slot (hfilter slot hs).1 (hfilter slot hs).2

end Frame

end Cup
