/-
  The operands of an expression, in the code of `codegen_expr` (`src/codegen/x64codegen.c`).

  `Emits` says what the generator did between two states, `Evaluates` what the code does that it
  emitted: run from its first byte to past its last, it leaves in a register what the reference
  gives, and keeps the registers that the code around it holds (`Kept`). A leaf writes its
  register only (`Reads.leafRun`). A second operand is loaded into a scratch register, or computed
  while the first one waits in a saved register (`Operands`).
-/
import Cup.Operation

namespace Cup

open Lib (Stop Run Res)
open Lib.X64

/-! ## Steps of the generator -/

theorem sat_then {α β : Type} {x : Gen α} {f : α → Gen β} {s : GenState}
    {Q : α → GenState → Prop} {R : β → GenState → Prop} {E : Stop → GenState → Prop}
    (hx : x.Sat s Q E) (hf : ∀ a s', Q a s' → (f a).Sat s' R E) : (x >>= f).Sat s R E :=
  Run.sat_bind.mpr (Run.sat_mono hx hf fun _ _ h => h)

/-- The generator gives up: no register is free, or a call has too many arguments. -/
def GivesUp (e : Stop) (_ : GenState) : Prop := e = .exit 1

/-- From `s` to `s'` the bytes were appended; of the tables only the trace may have changed. -/
structure Appended (s s' : GenState) (bytes : Bytes) : Prop where
  buf : s'.buf = s.buf ++ bytes
  used : ∀ r, hasReg s.fn.csUsed r = true → hasReg s'.fn.csUsed r = true
  cup : ∃ t, s'.cup = { s.cup with trace := t }
  returns : s'.returns = s.returns
  reallocs : s'.reallocs = s.reallocs

/-- The bytes are instructions without jumps. -/
structure Emits (s s' : GenState) (bytes : Bytes) : Prop extends Appended s s' bytes where
  straight : Straight bytes

theorem Appended.of_eq {s s' : GenState} {bytes : Bytes} (hbuf : s'.buf = s.buf ++ bytes)
    (hused : s'.fn.csUsed = s.fn.csUsed) (hcup : s'.cup = s.cup) (hreturns : s'.returns = s.returns)
    (hreallocs : s'.reallocs = s.reallocs) : Appended s s' bytes where
  buf := hbuf
  used r hr := by rwa [hused]
  cup := ⟨s.cup.trace, by rw [hcup]⟩
  returns := hreturns
  reallocs := hreallocs

theorem Emits.of_eq {s s' : GenState} {bytes : Bytes} (hb : Straight bytes)
    (hbuf : s'.buf = s.buf ++ bytes) (hused : s'.fn.csUsed = s.fn.csUsed) (hcup : s'.cup = s.cup)
    (hreturns : s'.returns = s.returns) (hreallocs : s'.reallocs = s.reallocs) :
    Emits s s' bytes :=
  ⟨.of_eq hbuf hused hcup hreturns hreallocs, hb⟩

theorem Appended.trans {s s' s'' : GenState} {a b : Bytes} (h : Appended s s' a)
    (h' : Appended s' s'' b) : Appended s s'' (a ++ b) where
  buf := by rw [h'.buf, h.buf, List.append_assoc]
  used r hr := h'.used r (h.used r hr)
  cup := by
    obtain ⟨t, ht⟩ := h.cup
    obtain ⟨t', ht'⟩ := h'.cup
    exact ⟨t', by rw [ht', ht]⟩
  returns := h'.returns.trans h.returns
  reallocs := h'.reallocs.trans h.reallocs

theorem Emits.trans {s s' s'' : GenState} {a b : Bytes} (h : Emits s s' a) (h' : Emits s' s'' b) :
    Emits s s'' (a ++ b) :=
  ⟨h.toAppended.trans h'.toAppended, h.straight.append h'.straight⟩

theorem Appended.length_le {s s' : GenState} {bytes : Bytes} (h : Appended s s' bytes) :
    s.buf.length ≤ s'.buf.length := by
  rw [h.buf, List.length_append]
  exact Nat.le_add_right _ _

theorem Appended.grows {s s' : GenState} {bytes : Bytes} (h : Appended s s' bytes)
    (hb : 0 < bytes.length) : s.buf.length < s'.buf.length := by
  rw [h.buf, List.length_append]
  omega

/-- The tables are those of `c`, up to the trace. -/
def SameTables (c s : CUPState) : Prop := ∃ t, s = { c with trace := t }

theorem Appended.tables {s s' : GenState} {bytes : Bytes} {c : CUPState} (h : Appended s s' bytes)
    (hc : SameTables c s.cup) : SameTables c s'.cup := by
  obtain ⟨t, ht⟩ := hc
  obtain ⟨t', ht'⟩ := h.cup
  exact ⟨t', by rw [ht', ht]⟩

theorem varLookupLoop_trace (c : CUPState) (t : List Event) (name : Bytes) (n scope : Nat) :
    varLookupLoop { c with trace := t } name n scope = varLookupLoop c name n scope := by
  induction n generalizing scope with
  | zero => rfl
  | succ n ih =>
    have hfind : varFind { c with trace := t } name scope = varFind c name scope := rfl
    simp only [varLookupLoop, hfind, ih]

theorem SameTables.lookup {c s : CUPState} (h : SameTables c s) (name : Bytes) :
    varLookup s name s.scope = varLookup c name c.scope := by
  obtain ⟨t, rfl⟩ := h
  exact varLookupLoop_trace c t name _ _

/-- From `s` to `s'` the depth grows by `n`, as a number of 32 bits. -/
structure Deeper (n : Int) (s s' : GenState) : Prop where
  depth : ((s'.fn.depth : Int) - s.fn.depth - n) % 2 ^ 32 = 0
  bound : s.fn.depth < 2 ^ 32 → s'.fn.depth < 2 ^ 32

theorem Deeper.of_eq {s s' : GenState} (h : s'.fn.depth = s.fn.depth) : Deeper 0 s s' where
  depth := by omega
  bound _ := by omega

theorem Deeper.trans {n n' k : Int} {s s' s'' : GenState} (h : Deeper n s s')
    (h' : Deeper n' s' s'') (hk : k = n + n') : Deeper k s s'' where
  depth := by
    have h₁ := h.depth
    have h₂ := h'.depth
    omega
  bound hs := h'.bound (h.bound hs)

theorem Deeper.parity {n : Nat} {s s' : GenState} (h : Deeper n s s') :
    s'.fn.depth % 2 = (s.fn.depth + n) % 2 := by
  have hd := h.depth
  omega

/-! ## Registers -/

/-- The registers that the code between `s` and `s'` hands back, beside the stack pointer: of those
    that a function must, the ones that the code around it holds and the ones that are not recorded;
    where nothing is called (`calm`) every other one that is held, but for the target. -/
def Kept (calm : Prop) (treg : X64Reg) (s s' : GenState) (r : X64Reg) : Prop :=
  r ≠ .rsp ∧ (r.calleeSaved = true ∧
      (r = .rbp ∨ hasReg s.fn.busy r = true ∨ hasReg s'.fn.csUsed r = false) ∨
    calm ∧ r ≠ treg ∧ hasReg s.fn.busy r = true)

section Kept

variable {calm : Prop} {treg treg' r : X64Reg} {s s' t t' : GenState}

theorem not_kept_target (h : treg.calleeSaved = false) : ¬ Kept calm treg s s' treg := by
  rintro ⟨-, ⟨hk, -⟩ | ⟨-, hne, -⟩⟩
  · rw [hk] at h
    cases h
  · exact hne rfl

theorem not_kept_free (h : r.calleeSaved = false) (hfree : hasReg s.fn.busy r = false) :
    ¬ Kept calm treg s s' r := by
  rintro ⟨-, ⟨hk, -⟩ | ⟨-, -, hbusy⟩⟩
  · rw [hk] at h
    cases h
  · rw [hfree] at hbusy
    cases hbusy

theorem not_kept_scratch (h : r.calleeSaved = false) : ¬ Kept False treg s s' r := by
  rintro ⟨-, ⟨hk, -⟩ | ⟨hcalm, -⟩⟩
  · rw [hk] at h
    cases h
  · exact hcalm

/-- A register that was taken and recorded. -/
theorem not_kept_recorded (hr : r ≠ .rbp) (hfree : hasReg s.fn.busy r = false)
    (hused : hasReg s'.fn.csUsed r = true) : ¬ Kept calm treg s s' r := by
  rintro ⟨-, ⟨-, hbp | hbusy | hfresh⟩ | ⟨-, -, hbusy⟩⟩
  · exact hr hbp
  · exact absurd (hfree.symm.trans hbusy) (by decide)
  · exact absurd (hused.symm.trans hfresh) (by decide)
  · exact absurd (hfree.symm.trans hbusy) (by decide)

theorem not_kept_rsp : ¬ Kept calm treg s s' .rsp := fun hk => hk.1 rfl

/-- Less is kept when more is held or recorded. -/
theorem Kept.mono (h : Kept calm treg s s' r)
    (hbusy : ∀ r, hasReg s.fn.busy r = true → hasReg t.fn.busy r = true)
    (hused : ∀ r, hasReg t'.fn.csUsed r = true → hasReg s'.fn.csUsed r = true) :
    Kept calm treg t t' r := by
  obtain ⟨hsp, ⟨hsaved, hr⟩ | ⟨hcalm, hne, hr⟩⟩ := h
  · refine ⟨hsp, .inl ⟨hsaved, ?_⟩⟩
    rcases hr with hr | hr | hr
    · exact .inl hr
    · exact .inr (.inl (hbusy r hr))
    · refine .inr (.inr (Bool.eq_false_iff.mpr fun hu => ?_))
      rw [hused r hu] at hr
      cases hr
  · exact ⟨hsp, .inr ⟨hcalm, hne, hbusy r hr⟩⟩

/-- What is kept when functions are called. -/
theorem Kept.of_calls (h : Kept False treg s s' r) : Kept calm treg' s s' r := by
  obtain ⟨hsp, hr | ⟨hcalm, -⟩⟩ := h
  · exact ⟨hsp, .inl hr⟩
  · exact hcalm.elim

theorem Kept.calls (h : Kept calm treg s s' r) (hcalm : ¬ calm) : Kept False treg' s s' r := by
  obtain ⟨hsp, hr | ⟨hc, -⟩⟩ := h
  · exact ⟨hsp, .inl hr⟩
  · exact absurd hc hcalm

/-- Another target, which was free. -/
theorem Kept.retarget (h : Kept calm treg s s' r) (hfree : hasReg s.fn.busy treg' = false) :
    Kept calm treg' s s' r := by
  obtain ⟨hsp, hr | ⟨hcalm, -, hbusy⟩⟩ := h
  · exact ⟨hsp, .inl hr⟩
  · refine ⟨hsp, .inr ⟨hcalm, ?_, hbusy⟩⟩
    rintro rfl
    rw [hfree] at hbusy
    cases hbusy

end Kept

/-- The state with a register taken. -/
def taken (s : GenState) (r : X64Reg) : GenState :=
  { s with fn := { s.fn with busy := s.fn.busy ||| regBit r } }

/-- The state with a saved register taken and recorded. -/
def takenSaved (s : GenState) (r : X64Reg) : GenState :=
  { s with fn := { s.fn with busy := s.fn.busy ||| regBit r, csUsed := s.fn.csUsed ||| regBit r } }

theorem pickScratch_sat (avoid : X64Reg) (s : GenState) :
    (pickScratch avoid).Sat s (fun r s' => s' = taken s r ∧ r ≠ avoid ∧ r.calleeSaved = false ∧
      hasReg s.fn.busy r = false) GivesUp := by
  unfold pickScratch regPick
  rw [Run.sat_bind, Run.sat_get]
  dsimp only
  split
  · exact rfl
  · rename_i r hr
    have hmem := List.mem_of_find?_eq_some hr
    have hfree := List.find?_some hr
    rw [decide_eq_true_eq] at hfree
    refine ⟨rfl, hfree.1, ?_, Bool.eq_false_iff.mpr hfree.2⟩
    revert hmem
    cases r <;> decide

theorem pickSaved_sat (avoid : X64Reg) (s : GenState) :
    (pickSaved avoid).Sat s (fun r s' => s' = takenSaved s r ∧ r ≠ avoid ∧ r ∈ poolSaved ∧
      hasReg s.fn.busy r = false) GivesUp := by
  unfold pickSaved regPick
  rw [Run.sat_bind, Run.sat_bind, Run.sat_get]
  dsimp only
  split
  · exact rfl
  · rename_i r hr
    have hfree := List.find?_some hr
    rw [decide_eq_true_eq] at hfree
    exact ⟨rfl, hfree.1, List.mem_of_find?_eq_some hr, Bool.eq_false_iff.mpr hfree.2⟩

/-- A register that was free is given back. -/
theorem busy_free {busy : BitVec 16} {r : X64Reg} (h : hasReg busy r = false) :
    (busy ||| regBit r) &&& ~~~ regBit r = busy := by
  ext i hi
  have hbit : hasReg busy r = busy.getLsbD r.num := rfl
  by_cases hir : i = r.num
  · subst hir
    rw [hbit, BitVec.getLsbD_eq_getElem hi] at h
    simp [regBit, h]
  · have hr := r.num_lt
    simp [regBit, BitVec.getElem_twoPow, hir]

theorem saved_of_mem {r : X64Reg} (h : r ∈ poolSaved) :
    r.calleeSaved = true ∧ r ≠ .rsp ∧ r ≠ .rbp := by
  revert h
  cases r <;> decide

/-! ## Leaves -/

section Leaves

variable {σ : Type} (ext : Reg → Machine → σ → Option (Machine × σ)) {L : Layout} {c : CUPState}
  {n : Nat} {treg : X64Reg} {sreg : Option X64Reg} {s s' : GenState} {l rest : List Node} {e : Expr}

/-- What the code of a leaf puts into its register. -/
def leafWord : Bool → Expr → Machine → Word
  | _, .const w, _ => w
  | want, .place a, m => if want then m.mem.load a else a
  | _, _, _ => 0

/-- The nodes of a leaf were taken, and its code writes nothing but the register. -/
structure LeafRun (treg : X64Reg) (want : Bool) (e : Expr) (rest : List Node) (s s' : GenState) :
    Prop where
  range : s'.range = rest
  fn : s'.fn = s.fn
  grows : s.buf.length < s'.buf.length
  code : ∃ bytes, Emits s s' bytes ∧ SetsTo ext bytes [treg] treg (leafWord want e)

variable {ext}

theorem getNodeValue_ok {v : Nat} (hs : s.range = .value v :: rest) :
    getNodeValue s = .ok v { s with range := rest } := by
  simp only [getNodeValue, getNode, Run.bind_apply, Run.get_apply, hs, Run.set_apply,
    Run.pure_apply]

theorem lookupVar_ok {name : Bytes} {v : Nat} (hc : SameTables c s.cup)
    (h : varLookup c name c.scope = .ok (some v)) : lookupVar name s = .ok v s := by
  rw [lookupVar, Run.get_bind, hc.lookup, h]
  rfl

/-- A variable or an address. -/
theorem addressCase_leaf {t : CTType} {want : Bool} {addr : Nat} {var : Option Nat}
    {tr : List Event}
    (hleaf : leafAddress L s = .ok (some (addr, var)) { s with cup := { s.cup with trace := tr } })
    (hrest : s.range.drop (if t = .tThis then 1 else 2) = rest) :
    (addressCase L t treg want).Sat s
      (fun _ s' => LeafRun ext treg want (.place (BitVec.ofNat 64 addr)) rest s s')
      fun _ _ => False := by
  have hrun : ∀ {s' : GenState} {bytes : Bytes}, s'.range = rest → s'.fn = s.fn →
      s'.buf = s.buf ++ bytes → 0 < bytes.length → s'.cup = { s.cup with trace := tr } →
      s'.returns = s.returns → s'.reallocs = s.reallocs →
      SetsTo ext bytes [treg] treg (leafWord want (.place (BitVec.ofNat 64 addr))) →
      LeafRun ext treg want (.place (BitVec.ofNat 64 addr)) rest s s' :=
    fun hrange hfn hbuf hpos hcup hret hre hcode => by
      have hem : Emits s _ _ :=
        ⟨⟨hbuf, fun r hr => by rwa [hfn], ⟨tr, hcup⟩, hret, hre⟩, hcode.straight⟩
      exact ⟨hrange, hfn, hem.grows hpos, _, hem, hcode⟩
  unfold addressCase
  rw [Run.sat_bind, Run.sat_of_ok hleaf]
  dsimp only
  rw [Run.sat_bind, skipNodes, Run.sat_modify]
  cases want with
  | false =>
    rw [if_neg (by rintro ⟨⟨⟩, -⟩), Run.sat_bind, emit, Run.sat_modify]
    exact hrun hrest rfl rfl (code_movImm64 treg addr).length_pos rfl rfl rfl
      (setsTo_movImm64 treg addr)
  | true =>
    split
    · rename_i h
      obtain rfl := h.2
      rw [Run.sat_bind, emit, Run.sat_modify]
      exact hrun hrest rfl rfl (code_loadRaxAbs addr).length_pos rfl rfl rfl
        (setsTo_loadRaxAbs addr)
    · rw [Run.sat_bind, emit, Run.sat_modify, if_pos rfl, Run.sat_bind, emit, Run.sat_modify]
      have hpos := (code_movImm64 treg addr).length_pos
      have hmov : SetsTo ext (emitMovImm64 treg addr) [treg] treg _ := setsTo_movImm64 treg addr
      have hload : SetsTo ext (emitLoad treg treg 0) [treg] treg _ := setsTo_load treg treg
      refine hrun hrest rfl (List.append_assoc _ _ _) (by rw [List.length_append]; omega) rfl rfl
        rfl ⟨hmov.straight.append hload.straight, fun m x => ?_⟩
      obtain ⟨m₁, hrun₁, hsets₁⟩ := hmov.sets m x
      obtain ⟨m₂, hrun₂, hsets₂⟩ := hload.sets m₁ x
      refine ⟨m₂, hrun₁.append hrun₂, ?_, hsets₂.mem.trans hsets₁.mem, fun q hq => ?_⟩
      · have haddr : m₁.regs treg = BitVec.ofNat 64 addr := hsets₁.value
        have hvalue : m₂.regs treg = m₁.mem.load (m₁.regs treg) := hsets₂.value
        rw [hvalue, haddr, hsets₁.mem]
        rfl
      · rw [hsets₂.others q hq, hsets₁.others q hq]

/-- Other tokens have no address. -/
theorem leafAddress_none {loc : Loc} {more : List Node} (hs : s.range = .tok loc :: more)
    (h₁ : loc.token ≠ .nAddress) (h₂ : loc.token ≠ .tIdentifier) (h₃ : loc.token ≠ .tThis) :
    leafAddress L s = .ok none s := by
  rw [leafAddress, Run.get_bind, hs]
  dsimp only [Node.token?]
  generalize loc.token = t at *
  cases t
  case nAddress => exact absurd rfl h₁
  case tIdentifier => exact absurd rfl h₂
  case tThis => exact absurd rfl h₃
  all_goals rfl

/-- A place is read as an address. -/
theorem Reads.place {a : Word} (h : Reads L c l (.place a)) (hc : SameTables c s.cup)
    (hs : s.range = l ++ rest) : ∃ loc more addr var tr, l = .tok loc :: more ∧
      (loc.token = .tIdentifier ∨ loc.token = .tThis ∨ loc.token = .nAddress) ∧
      l.length = (if loc.token = .tThis then 1 else 2) ∧ a = BitVec.ofNat 64 addr ∧
      leafAddress L s = .ok (some (addr, var)) { s with cup := { s.cup with trace := tr } } := by
  cases h with
  | @var loc name v ht hv =>
    have hlook := lookupVar_ok hc hv
    refine ⟨loc, _, _, some v, s.cup.trace ++ [.entry name s.cup.scope (some v)], rfl, .inl ht,
      by rw [ht]; rfl, rfl, ?_⟩
    conv_lhs => rw [leafAddress, Run.get_bind, hs]
    dsimp only [Node.token?, List.cons_append]
    rw [ht]
    dsimp only
    rw [Run.bind_of_ok hlook]
    rfl
  | @this loc v ht hv =>
    have hlook := lookupVar_ok hc hv
    refine ⟨loc, _, _, some v, s.cup.trace, rfl, .inr (.inl ht), by rw [ht]; rfl, rfl, ?_⟩
    conv_lhs => rw [leafAddress, Run.get_bind, hs]
    dsimp only [Node.token?, List.cons_append]
    rw [ht]
    dsimp only
    rw [Run.bind_of_ok hlook]
    rfl
  | @address loc n ht =>
    refine ⟨loc, _, n, none, s.cup.trace, rfl, .inr (.inr ht), by rw [ht]; rfl, rfl, ?_⟩
    conv_lhs => rw [leafAddress, Run.get_bind, hs]
    dsimp only [Node.token?, List.cons_append]
    rw [ht]
    rfl

theorem Reads.not_place (h : Reads L c l e) (he : ∀ a, e ≠ .place a) : ∃ loc more,
    l = .tok loc :: more ∧ loc.token ≠ .nAddress ∧ loc.token ≠ .tIdentifier ∧ loc.token ≠ .tThis := by
  have hother : ∀ {loc : Loc} {more : List Node} {t : CTType}, loc.token = t → t ≠ .nAddress →
      t ≠ .tIdentifier → t ≠ .tThis → ∃ loc' more', Node.tok loc :: more = .tok loc' :: more' ∧
        loc'.token ≠ .nAddress ∧ loc'.token ≠ .tIdentifier ∧ loc'.token ≠ .tThis := by
    rintro loc more t rfl h₁ h₂ h₃
    exact ⟨loc, more, rfl, h₁, h₂, h₃⟩
  cases h with
  | number ht _ => exact hother ht (by decide) (by decide) (by decide)
  | string ht =>
    rcases ht with ht | ht
    · exact hother ht (by decide) (by decide) (by decide)
    · exact hother ht (by decide) (by decide) (by decide)
  | var _ _ => exact absurd rfl (he _)
  | this _ _ => exact absurd rfl (he _)
  | address _ => exact absurd rfl (he _)
  | array ht => exact hother ht (by decide) (by decide) (by decide)
  | index ht => exact hother ht (by decide) (by decide) (by decide)
  | assign ht => exact hother ht (by decide) (by decide) (by decide)
  | addAssign ht => exact hother ht (by decide) (by decide) (by decide)
  | @binary _ op _ _ _ _ ht =>
    cases op
    all_goals exact hother ht (by decide) (by decide) (by decide)
  | call ht => exact hother ht (by decide) (by decide) (by decide)

/-- `codegen_expr` of a leaf. -/
theorem Reads.leafRun (h : Reads L c l e) (hleaf : e.isLeaf = true) (hc : SameTables c s.cup)
    (hs : s.range = l ++ rest) : (codegenExpr L (n + 1) treg sreg).Sat s
      (fun r s' => r.1 = 0 ∧ LeafRun ext treg sreg.isSome e rest s s') fun _ _ => False := by
  cases e with
  | const w =>
    cases h with
    | @number loc v ht hv =>
      have hs : s.range = .tok loc :: .value v :: rest := hs
      have hvalue : getNodeValue { s with range := .value v :: rest } =
        .ok v { s with range := rest } := getNodeValue_ok rfl
      simp only [codegenExpr]
      rw [Run.sat_bind, Run.sat_get, Run.sat_bind, Run.sat_of_ok (getNodeToken_ok hs), ht]
      dsimp only
      rw [Run.sat_bind, Run.sat_of_ok hvalue]
      have hset : SetsTo ext (emitMovConst treg v) [treg] treg
          (leafWord sreg.isSome (.const (BitVec.ofNat 64 v))) := setsTo_movConst treg hv
      have hem : Emits s { s with range := rest, buf := s.buf ++ emitMovConst treg v }
        (emitMovConst treg v) := .of_eq hset.straight rfl rfl rfl rfl rfl
      exact ⟨rfl, rfl, rfl, hem.grows (code_movConst treg hv).length_pos, _, hem, hset⟩
    | @string loc i ht =>
      have hs : s.range = .tok loc :: .value i :: rest := hs
      have hvalue : getNodeValue { s with range := .value i :: rest } =
        .ok i { s with range := rest } := getNodeValue_ok rfl
      have hptr : L.dataPtr s.cup i = L.dataPtr c i := by
        obtain ⟨t, ht⟩ := hc
        rw [ht]
        rfl
      have hset : SetsTo ext (emitMovImm64 treg (L.dataPtr s.cup i)) [treg] treg
          (leafWord sreg.isSome (.const (BitVec.ofNat 64 (L.dataPtr c i)))) :=
        hptr ▸ setsTo_movImm64 treg _
      have hem : Emits s
          { s with range := rest, buf := s.buf ++ emitMovImm64 treg (L.dataPtr s.cup i) }
          (emitMovImm64 treg (L.dataPtr s.cup i)) := .of_eq hset.straight rfl rfl rfl rfl rfl
      have hgrows := hem.grows (code_movImm64 treg _).length_pos
      simp only [codegenExpr]
      rw [Run.sat_bind, Run.sat_get, Run.sat_bind, Run.sat_of_ok (getNodeToken_ok hs)]
      rcases ht with ht | ht
      · rw [ht]
        dsimp only
        rw [Run.sat_bind, Run.sat_of_ok hvalue]
        exact ⟨rfl, rfl, rfl, hgrows, _, hem, hset⟩
      · rw [ht]
        dsimp only
        rw [Run.sat_bind, Run.sat_of_ok hvalue]
        exact ⟨rfl, rfl, rfl, hgrows, _, hem, hset⟩
  | place a =>
    obtain ⟨loc, more, addr, var, tr, rfl, ht, hlen, rfl, haddr⟩ := h.place hc hs
    have hdrop : s.range.drop (if loc.token = .tThis then 1 else 2) = rest := by
      rw [hs, ← hlen, List.drop_left]
    have hcase : (addressCase L loc.token treg sreg.isSome >>= fun v => pure ((0 : Nat), v)).Sat s
        (fun r s' => r.1 = 0 ∧
          LeafRun ext treg sreg.isSome (.place (BitVec.ofNat 64 addr)) rest s s')
        fun _ _ => False :=
      sat_then (addressCase_leaf haddr hdrop) fun _ _ h => ⟨rfl, h⟩
    simp only [codegenExpr]
    rw [Run.sat_bind, Run.sat_get, Run.sat_bind, Run.sat_of_ok (getNodeToken_ok hs)]
    rcases ht with ht | ht | ht
    · rw [ht] at hcase ⊢
      exact hcase
    · rw [ht] at hcase ⊢
      exact hcase
    · rw [ht] at hcase ⊢
      exact hcase
  | _ => cases hleaf

theorem Reads.length_pos (h : Reads L c l e) : 0 < l.length := by
  cases h <;> exact Nat.succ_pos _

theorem Reads.leafSize (h : Reads L c l e) (rest : List Node) :
    Cup.leafSize (l ++ rest) = if e.isLeaf then l.length else 0 := by
  have hnone : ∀ {loc : Loc} {more : List Node}, loc.token ∉ payloadLeaf → loc.token ≠ .tThis →
      Cup.leafSize (.tok loc :: more) = 0 := by
    intro loc more hpay hthis
    refine not_not.mp fun hne => ?_
    rcases leafSize_cases hne with ⟨n, m, rest, t, he, ht, hmem⟩ | ⟨n, rest, he, ht⟩
    · rw [← (List.cons.inj he).1] at ht
      exact hpay (Option.some.inj ht ▸ hmem)
    · rw [← (List.cons.inj he).1] at ht
      exact hthis (Option.some.inj ht)
  cases h with
  | number ht _ => exact leafSize_payload (congrArg some ht) (by decide)
  | string ht =>
    rcases ht with ht | ht
    · exact leafSize_payload (congrArg some ht) (by decide)
    · exact leafSize_payload (congrArg some ht) (by decide)
  | var ht _ => exact leafSize_payload (congrArg some ht) (by decide)
  | this ht _ => exact leafSize_this (congrArg some ht)
  | address ht => exact leafSize_payload (congrArg some ht) (by decide)
  | array ht => exact hnone (by rw [ht]; decide) (by rw [ht]; decide)
  | index ht => exact hnone (by rw [ht]; decide) (by rw [ht]; decide)
  | assign ht => exact hnone (by rw [ht]; decide) (by rw [ht]; decide)
  | addAssign ht => exact hnone (by rw [ht]; decide) (by rw [ht]; decide)
  | @binary _ op _ _ _ _ ht =>
    exact hnone (by rw [ht]; cases op <;> decide) (by rw [ht]; cases op <;> decide)
  | call ht => exact hnone (by rw [ht]; decide) (by rw [ht]; decide)

/-- A small immediate operand is a number. -/
theorem Reads.smallImm {imm : Nat} (h : Reads L c l e)
    (hi : isSmallImm (l ++ rest) = some imm) : e = .const (BitVec.ofNat 64 imm) ∧ l.length = 2 := by
  have hnum : ∀ {loc : Loc} {more : List Node}, isSmallImm (.tok loc :: more) = some imm →
      loc.token = .tNumber := by
    intro loc more hi
    unfold isSmallImm at hi
    split at hi
    · rename_i he
      split at hi
      · obtain ⟨he, -⟩ := List.cons.inj he
        cases he
        exact And.left ‹_›
      · cases hi
    · cases hi
  have hother : ∀ {loc : Loc} {more : List Node}, isSmallImm (.tok loc :: more) = some imm →
      loc.token ≠ .tNumber → e = .const (BitVec.ofNat 64 imm) ∧ l.length = 2 :=
    fun hi hne => absurd (hnum hi) hne
  cases h with
  | number ht _ =>
    refine ⟨?_, rfl⟩
    unfold isSmallImm at hi
    dsimp only [List.cons_append] at hi
    split at hi
    · rw [Option.some.inj hi]
    · cases hi
  | string ht =>
    rcases ht with ht | ht
    · exact hother hi (by rw [ht]; decide)
    · exact hother hi (by rw [ht]; decide)
  | var ht _ => exact hother hi (by rw [ht]; decide)
  | this ht _ => exact hother hi (by rw [ht]; decide)
  | address ht => exact hother hi (by rw [ht]; decide)
  | array ht => exact hother hi (by rw [ht]; decide)
  | index ht => exact hother hi (by rw [ht]; decide)
  | assign ht => exact hother hi (by rw [ht]; decide)
  | addAssign ht => exact hother hi (by rw [ht]; decide)
  | @binary _ op _ _ _ _ ht => exact hother hi (by rw [ht]; cases op <;> decide)
  | call ht => exact hother hi (by rw [ht]; decide)

end Leaves

/-! ## What code computes -/

section Computes

variable {σ : Type} (W : World σ) (ext : Reg → Machine → σ → Option (Machine × σ))

/-- With `k` free bytes of stack and `d` pushed words the stack pointer is aligned to 16 bytes,
    or 8 behind. -/
def Aligned (S : Stack) (k d : Nat) : Prop := (S.top k).toNat % 16 = 8 * (d % 2)

/-- No call returns. -/
def World.Calm : Prop := ∀ f args s, W.call f args s = none

/-- Nodes were taken from the stream, and code was emitted that does what `f` does, from machines
    in `pre` to machines in `post`. It needs `need` words of the stack, which is aligned where
    functions are called. -/
structure Works (calm : Prop) (treg : X64Reg) {α : Type} (need : Nat) (pre : Machine → Prop)
    (f : Meaning σ α) (post : α → Machine → Prop) (rest : List Node) (s s' : GenState) : Prop where
  range : s'.range = rest
  busy : s'.fn.busy = s.fn.busy
  depth : Deeper 0 s s'
  code : ∃ bytes, Emits s s' bytes ∧ ∀ k, 8 * need ≤ k → k ≤ W.stack.size →
    (¬ calm → Aligned W.stack k s.fn.depth) →
    Does W.stack ext (Kept calm treg s s') k k k bytes pre f post

/-- The code, which is not empty, leaves in `treg` what `f` gives. -/
structure Evaluates (need : Nat) (f : Meaning σ Word) (treg : X64Reg) (rest : List Node)
    (s s' : GenState) : Prop
    extends Works W ext W.Calm treg need (fun _ => True) f (fun v m => m.regs treg = v) rest s s'
    where
  grows : s.buf.length < s'.buf.length

/-- A call returns what the reference says. It is made with an aligned stack, the callee in
    `r11`, 0 in `rax` and the arguments in their registers; it hands back the stack and the
    registers that a function must. -/
def CallsAs : Prop :=
  ∀ k m M x (args : List Word) v M' x', InStep W.stack k m M → 8 * W.room ≤ k →
    k ≤ W.stack.size → (W.stack.top k).toNat % 16 = 0 → m.regs .rax = 0 →
    args.length ≤ sysvArgRegs.length → (sysvArgRegs.take args.length).map m.regs = args →
    W.call (m.regs .r11) args (M, x) = some (v, (M', x')) →
    ∃ m', ext .r11 m x = some (m', x') ∧ m'.regs .rax = v ∧ InStep W.stack k m' M' ∧
      W.stack.Keeps k m.mem m'.mem ∧ ∀ r, r.calleeSaved = true → m'.regs r = m.regs r

/-- `codegen_expr` compiles the nodes, to any register that a function need not hand back. -/
def Compiles (c : CUPState) (rec : GenExpr) (l : List Node) (e : Expr) : Prop :=
  ∀ treg sreg s rest, treg.calleeSaved = false → SameTables c s.cup → s.range = l ++ rest →
    (rec treg sreg).Sat s (fun r s' => r.1 = 0 ∧
      Evaluates W ext (W.words e) (W.eval sreg.isSome e) treg rest s s') GivesUp

variable {W} {ext} {keep : Reg → Prop} {K k : Nat} {bytes : Bytes} {pre : Machine → Prop}
  {post : Word → Machine → Prop} {e : Expr} {r : X64Reg}

/-- The code of a leaf. -/
theorem does_leaf {want : Bool} (hleaf : e.isLeaf = true)
    (hs : SetsTo ext bytes [r] r (leafWord want e)) (hkeep : ¬ keep r) (hsp : r ≠ .rsp)
    (hpost : ∀ v m m', pre m → Sets [r] r v m m' → post v m') :
    Does W.stack ext keep K k k bytes pre (W.eval want e) post := by
  have hkeep : ∀ q ∈ [r], ¬ keep q := fun q hq => List.mem_singleton.mp hq ▸ hkeep
  have hsp : .rsp ∉ [r] := fun h => hsp (List.mem_singleton.mp h).symm
  cases e with
  | const w =>
    rw [World.eval]
    exact does_sets hs hkeep hsp fun m m' hp hsets => hpost _ m m' hp hsets
  | place a =>
    rw [World.eval]
    cases want with
    | false => exact does_sets hs hkeep hsp fun m m' hp hsets => hpost _ m m' hp hsets
    | true => exact does_read hs hkeep hsp (fun _ _ => rfl) hpost
  | _ => cases hleaf

theorem leafValue_eq (hleaf : e.isLeaf = true) : W.leafValue e = W.eval true e := by
  cases e with
  | const w =>
    rw [World.eval]
    rfl
  | place a =>
    rw [World.eval]
    rfl
  | _ => cases hleaf

end Computes

/-! ## Two operands -/

theorem Kept.left {calm : Prop} {treg r : X64Reg} {s s' s'' : GenState} {b : Bytes}
    (h : Kept calm treg s s'' r) (he : Appended s' s'' b) : Kept calm treg s s' r :=
  h.mono (fun _ hb => hb) he.used

theorem Kept.right {calm : Prop} {treg r : X64Reg} {s s' s'' : GenState}
    (h : Kept calm treg s s'' r)
    (hbusy : ∀ r, hasReg s.fn.busy r = true → hasReg s'.fn.busy r = true) :
    Kept calm treg s' s'' r :=
  h.mono hbusy fun _ hu => hu

theorem Deeper.aligned_of {S : Stack} {k : Nat} {s s' : GenState} (h : Deeper 0 s s')
    (hal : Aligned S k s.fn.depth) : Aligned S k s'.fn.depth := by
  have hdepth : s'.fn.depth % 2 = (s.fn.depth + 0) % 2 := h.parity
  rw [Aligned, hdepth]
  exact hal

theorem Deeper.aligned {calm : Prop} {S : Stack} {k : Nat} {s s' : GenState} (h : Deeper 0 s s')
    (hal : ¬ calm → Aligned S k s.fn.depth) : ¬ calm → Aligned S k s'.fn.depth :=
  fun hcalm => h.aligned_of (hal hcalm)

section Operands

variable {σ : Type} (W : World σ) (ext : Reg → Machine → σ → Option (Machine × σ)) (L : Layout)
  (c : CUPState)

/-- What the generator may rely on at the nodes of an operand. -/
structure Subtree (rec : GenExpr) (l : List Node) (e : Expr) : Prop where
  reads : Reads L c l e
  tree : Compiles W ext c rec l e
  leaf : e.isLeaf = true → ∀ treg sreg s rest, SameTables c s.cup → s.range = l ++ rest →
    (rec treg sreg).Sat s (fun r s' => r.1 = 0 ∧ LeafRun ext treg sreg.isSome e rest s s')
      fun _ _ => False

/-- Code was emitted that leaves in `a` what `f` gives and in `b` what `g` then gives; the
    register `held` was taken for it. -/
structure Operands (need : Nat) (f g : Meaning σ Word) (treg held a b : X64Reg)
    (rest : List Node) (s s' : GenState) : Prop where
  range : s'.range = rest
  free : hasReg s.fn.busy held = false
  busy : s'.fn.busy = s.fn.busy ||| regBit held
  depth : Deeper 0 s s'
  left : a ≠ .rsp ∧ ∀ t bytes, Appended s' t bytes → ¬ Kept W.Calm treg s t a
  right : b ≠ .rsp
  grows : s.buf.length < s'.buf.length
  code : ∃ bytes, Emits s s' bytes ∧ ∀ k, 8 * need ≤ k → k ≤ W.stack.size →
    (¬ W.Calm → Aligned W.stack k s.fn.depth) →
    Does W.stack ext (Kept W.Calm treg s s') k k k bytes (fun _ => True)
      (f >>= fun v => g >>= fun w => pure (v, w)) fun p m => m.regs a = p.1 ∧ m.regs b = p.2

variable {W} {ext} {L} {c} {rec : GenExpr} {l rest : List Node} {e : Expr} {treg a b held : X64Reg}
  {s s₁ s₂ s' : GenState} {need need' : Nat} {f g : Meaning σ Word}

theorem Subtree.single (h : Subtree W ext L c rec l e) {sreg : Option X64Reg}
    (ht : treg.calleeSaved = false) (hc : SameTables c s.cup) (hs : s.range = l ++ rest) :
    (single rec treg sreg).Sat s
      (fun _ s' => Evaluates W ext (W.words e) (W.eval sreg.isSome e) treg rest s s') GivesUp := by
  refine sat_then (h.tree treg sreg s rest ht hc hs) ?_
  rintro ⟨count, var⟩ s' ⟨hcount, he⟩
  obtain rfl : count = 0 := hcount
  exact he

/-- A leaf whose nodes are given. -/
theorem Subtree.genLeaf (h : Subtree W ext L c rec l e) (hleaf : e.isLeaf = true)
    (hc : SameTables c s.cup) : (genLeaf rec treg l).Sat s
      (fun _ s' => LeafRun ext treg true e s.range s s') GivesUp := by
  unfold Cup.genLeaf
  rw [Run.sat_bind, Run.sat_get, Run.sat_bind, Run.sat_modify]
  refine sat_then (Run.sat_mono (h.leaf hleaf treg (some treg) { s with range := l } [] hc
    (List.append_nil l).symm) (fun _ _ h => h) fun _ _ h => h.elim) ?_
  rintro _ s₁ ⟨-, -, hfn, hgrows, bytes, hem, hset⟩
  exact ⟨rfl, hfn, hgrows, bytes,
    ⟨⟨hem.buf, hem.used, hem.cup, hem.returns, hem.reallocs⟩, hem.straight⟩, hset⟩

theorem Subtree.takeLeaf (h : Subtree W ext L c rec l e) (hleaf : e.isLeaf = true)
    (hc : SameTables c s.cup) (hs : s.range = l ++ rest) :
    (takeLeaf rec treg (leafSize (l ++ rest))).Sat s
      (fun _ s' => LeafRun ext treg true e rest s s') GivesUp := by
  have hsize : leafSize (l ++ rest) = l.length := by rw [h.reads.leafSize, if_pos hleaf]
  unfold Cup.takeLeaf
  rw [Run.sat_bind, Run.sat_get, hs, hsize, List.take_left]
  refine sat_then (h.genLeaf hleaf hc) ?_
  rintro _ s₁ ⟨hrange, hfn, hgrows, bytes, hem, hset⟩
  refine ⟨?_, hfn, hgrows, bytes,
    ⟨⟨hem.buf, hem.used, hem.cup, hem.returns, hem.reallocs⟩, hem.straight⟩, hset⟩
  change s₁.range.drop l.length = rest
  rw [hrange, hs, List.drop_left]

/-- The second operand is a leaf: it is loaded into a scratch register. -/
theorem Evaluates.leafOperand {β : Type} {q : X64Reg → Gen β} {R : β → GenState → Prop}
    (h : Evaluates W ext need f treg (l ++ rest) s s₁) (hsub : Subtree W ext L c rec l e)
    (hleaf : e.isLeaf = true) (ht : treg.calleeSaved = false) (hc : SameTables c s₁.cup)
    (hq : ∀ r s₂, Operands W ext need f (W.eval true e) treg r treg r rest s s₂ →
      (q r).Sat s₂ R GivesUp) :
    (pickScratch treg >>= fun r => takeLeaf rec r (leafSize (l ++ rest)) >>= fun _ => q r).Sat s₁
      R GivesUp := by
  refine sat_then (pickScratch_sat treg s₁) ?_
  rintro r _ ⟨rfl, hne, hr, hfree⟩
  refine sat_then (hsub.takeLeaf hleaf (s := taken s₁ r) hc h.range) ?_
  rintro _ s₂ ⟨hrange, hfn, -, bytes₂, hem₂, hset⟩
  obtain ⟨bytes₁, hem₁, hcode⟩ := h.code
  have hem : Emits s₁ s₂ bytes₂ :=
    ⟨⟨hem₂.buf, fun r hr => hem₂.used r hr, hem₂.cup, hem₂.returns, hem₂.reallocs⟩, hem₂.straight⟩
  have hsp : ∀ {r : X64Reg}, r.calleeSaved = false → r ≠ .rsp := by
    rintro r hr rfl
    cases hr
  have hdepth : Deeper 0 s₁ s₂ := .of_eq (by rw [hfn, taken])
  have hfree' : hasReg s.fn.busy r = false := by rwa [← h.busy]
  refine hq r s₂ ⟨hrange, hfree', ?_, h.depth.trans hdepth rfl,
    ⟨hsp ht, fun _ _ _ => not_kept_target ht⟩, hsp hr, h.grows.trans_le hem.length_le, _,
    hem₁.trans hem, fun k hk hsize hal => ?_⟩
  · rw [hfn, ← h.busy]
    rfl
  · have hleft : Does W.stack ext (Kept W.Calm treg s s₂) k k k bytes₁ (fun _ => True) f
        fun v m => m.regs treg = v :=
      (hcode k hk hsize hal).of_keep fun _ hr => hr.left hem.toAppended
    refine hleft.bind fun v => ?_
    have hright : Does W.stack ext (Kept W.Calm treg s s₂) k k k bytes₂
        (fun m => m.regs treg = v) (W.eval true e) fun w m => m.regs treg = v ∧ m.regs r = w :=
      does_leaf hleaf hset (not_kept_free hr hfree') (hsp hr) fun w m m' hm hsets =>
        ⟨(hsets.others _ fun hmem => hne (List.mem_singleton.mp hmem).symm).trans hm, hsets.value⟩
    exact hright.map

/-- The second operand is computed, possibly by calls: the first one waits in a saved register. -/
theorem Evaluates.treeOperand {β : Type} {q : X64Reg → Gen β} {R : β → GenState → Prop}
    (h : Evaluates W ext need f treg (l ++ rest) s s₁) (hsub : Subtree W ext L c rec l e)
    (ht : treg.calleeSaved = false) (hc : SameTables c s₁.cup)
    (hq : ∀ r s₂, Operands W ext (max need (W.words e)) f (W.eval true e) treg r r treg rest s s₂ →
      (q r).Sat s₂ R GivesUp) :
    (pickSaved treg >>= fun r => emit (emitMovRr r treg) >>= fun _ =>
      single rec treg (some treg) >>= fun _ => q r).Sat s₁ R GivesUp := by
  refine sat_then (pickSaved_sat treg s₁) ?_
  rintro r _ ⟨rfl, hne, hmem, hfree⟩
  obtain ⟨hr, hrsp, hrbp⟩ := saved_of_mem hmem
  have hsp : treg ≠ .rsp := by
    rintro rfl
    cases ht
  rw [Run.sat_bind, emit, Run.sat_modify]
  obtain ⟨bytes₁, hem₁, hcode₁⟩ := h.code
  have hmove : SetsTo ext (emitMovRr r treg) [r] r _ := setsTo_movRr r treg
  have hmid : Emits s₁ { takenSaved s₁ r with buf := s₁.buf ++ emitMovRr r treg }
      (emitMovRr r treg) :=
    ⟨⟨rfl, fun q hq => hasReg_or.mpr (.inl hq), ⟨_, rfl⟩, rfl, rfl⟩, hmove.straight⟩
  refine sat_then (hsub.single ht (hmid.tables hc) h.range) ?_
  rintro _ s₂ h₂
  obtain ⟨bytes₂, hem₂, hcode₂⟩ := h₂.code
  have hem : Emits s₁ s₂ (emitMovRr r treg ++ bytes₂) := hmid.trans hem₂
  have hused : hasReg s₂.fn.csUsed r = true := hem₂.used r (hasReg_or.mpr (.inr rfl))
  have hfree' : hasReg s.fn.busy r = false := by rwa [← h.busy]
  have hnot : ∀ t bytes, Appended s₂ t bytes → ¬ Kept W.Calm treg s t r := fun t bytes het =>
    not_kept_recorded hrbp hfree' (het.used r hused)
  have hbusy₂ : s₂.fn.busy = s.fn.busy ||| regBit r := by
    rw [h₂.busy, ← h.busy]
    rfl
  have hdepth : Deeper 0 s₁ s₂ := ⟨h₂.depth.depth, h₂.depth.bound⟩
  refine hq r s₂ ⟨h₂.range, hfree', hbusy₂, h.depth.trans hdepth rfl, ⟨hrsp, hnot⟩, hsp,
    h.grows.trans_le hem.length_le, _, hem₁.trans hem, fun k hk hsize hal => ?_⟩
  · have hleft : Does W.stack ext (Kept W.Calm treg s s₂) k k k bytes₁ (fun _ => True) f
        fun v m => m.regs treg = v :=
      (hcode₁ k (by omega) hsize hal).of_keep fun _ hr => hr.left hem.toAppended
    refine hleft.bind fun v => ?_
    -- the register that waits is held by the code of the second operand
    have hright := (hcode₂ k (by omega) hsize (h.depth.aligned hal)).frame
      ⟨hrsp, .inl ⟨hr, .inr (.inl (hasReg_or.mpr (.inr rfl)))⟩⟩ v
    have hright' : Does W.stack ext (Kept W.Calm treg s s₂) k k k bytes₂
        (fun m => True ∧ m.regs r = v) (W.eval true e) fun w m => m.regs treg = w ∧ m.regs r = v :=
      hright.of_keep fun _ hk => hk.right fun q hq => hasReg_or.mpr (.inl (h.busy ▸ hq))
    refine Does.sets_then hmove (hright'.to_post fun w m hm => ⟨hm.2, hm.1⟩).map
      (fun q hq => ?_) ?_ fun m m' hm hsets => ?_
    · rw [List.mem_singleton.mp hq]
      exact hnot s₂ [] (.of_eq (List.append_nil _).symm rfl rfl rfl rfl)
    · exact fun hmem => hrsp (List.mem_singleton.mp hmem).symm
    · exact ⟨trivial, hsets.value.trans hm⟩

/-- Both operands are used, and the register is given back. -/
theorem Operands.finish {q : Word → Word → Meaning σ Word} {tail : Bytes}
    (h : Operands W ext need f g treg held a b rest s s₂) (hem : Emits s₂ s' tail)
    (hrange : s'.range = s₂.range) (hbusy : s'.fn.busy = s₂.fn.busy &&& ~~~ regBit held)
    (hdepth : s'.fn.depth = s₂.fn.depth)
    (hcode : ∀ k v w, Does W.stack ext (Kept W.Calm treg s s') k k k tail
      (fun m => m.regs a = v ∧ m.regs b = w) (q v w) fun u m => m.regs treg = u) :
    Evaluates W ext need (f >>= fun v => g >>= fun w => q v w) treg rest s s' := by
  obtain ⟨bytes, hem₂, hdoes⟩ := h.code
  refine ⟨⟨hrange.trans h.range, ?_, h.depth.trans (.of_eq hdepth) rfl, _, hem₂.trans hem,
    fun k hk hsize hal => ?_⟩, h.grows.trans_le hem.length_le⟩
  · rw [hbusy, h.busy, busy_free h.free]
  · have hpair : Does W.stack ext (Kept W.Calm treg s s') k k k bytes (fun _ => True)
        (f >>= fun v => g >>= fun w => pure (v, w)) fun p m => m.regs a = p.1 ∧ m.regs b = p.2 :=
      (hdoes k hk hsize hal).of_keep fun _ hr => hr.left hem.toAppended
    have hdone := hpair.bind fun p => hcode k p.1 p.2
    simp only [Run.bind_assoc, Run.pure_bind'] at hdone
    exact hdone

end Operands

end Cup
