/-
  The code of an expression without calls (`codegen_expr`, `src/codegen/x64codegen.c`).

  Where nothing is called, the code of an expression uses no stack and the reference is a function
  of the memory (`Expr.value`): every evaluation returns, from every memory.

  Proved: `codegenExpr_yields`: for a target that a function need not hand back, on every machine
  the code gives the value and the memory of `Expr.value`, and keeps the registers that are held
  and those of the caller that are not recorded. Array literals and calls are left out; for these
  see `Cup.Calling`.
-/
import Cup.Calling

namespace Cup

open Lib (Stop Run Res)
open Lib.X64

/-! ## Expressions without calls -/

namespace Expr

/-- There is no array literal and no call in the expression. -/
def plain : Expr → Bool
  | const _ | place _ => true
  | index b i => b.plain && i.plain
  | assign d v | addAssign d v => d.plain && v.plain
  | binary _ l r => l.plain && r.plain
  | array _ _ | call _ _ => false

/-- The value of the expression or, where it is not `want`ed, the address of its place, and the
    memory behind. -/
def value : Bool → Expr → Mem → Word × Mem
  | _, .const w, M => (w, M)
  | want, .place a, M => (if want then M.load a else a, M)
  | want, .index b i, M =>
    let (p, M) := b.value true M
    let (k, M) := i.value true M
    (if want then M.load (p + k * 8) else p + k * 8, M)
  | _, .assign d v, M =>
    let (a, M) := d.value false M
    let (x, M) := v.value true M
    (x, M.store a x)
  | _, .addAssign d v, M =>
    let (a, M) := d.value false M
    let (x, M) := v.value true M
    (M.load a + x, M.store a (M.load a + x))
  | _, .binary op l r, M =>
    let (a, M) := l.value true M
    let (b, M) := r.value true M
    (op.apply a b, M)
  | _, .array _ _, M | _, .call _ _, M => (0, M)

end Expr

/-- A world without calls, in which no byte of the memory is the stack. -/
def World.bare (σ : Type) (sp : Word) : World σ where
  stack := ⟨sp, 0, Nat.zero_le _⟩
  room := 0
  call _ _ _ := none

section Bare

variable {σ : Type} {ext : Reg → Machine → σ → Option (Machine × σ)} {sp : Word} {e : Expr} {x : σ}

theorem bare_misses (a : Word) : (World.bare σ sp).stack.Misses a :=
  fun _ _ h => Nat.not_lt_zero _ h

theorem bare_read (a : Word) (M : Mem) :
    (World.bare σ sp).stack.read a (M, x) = .ok (M.load a) (M, x) := by
  rw [Stack.read, if_pos (bare_misses a)]
  rfl

theorem bare_write (a v : Word) (M : Mem) :
    (World.bare σ sp).stack.write a v (M, x) = .ok () (M.store a v, x) := by
  rw [Stack.write, if_pos (bare_misses a)]
  rfl

theorem bare_calm : (World.bare σ sp).Calm := fun _ _ _ => rfl

theorem bare_callsAs : CallsAs (World.bare σ sp) ext := by
  intro k m M x args v M' x' _ _ _ _ _ _ _ hcall
  cases hcall

/-- The evaluation of an expression without calls returns. -/
theorem eval_plain : ∀ (e : Expr) (want : Bool) (M : Mem) (x : σ), e.plain = true →
    (World.bare σ sp).eval want e (M, x) = .ok (e.value want M).1 ((e.value want M).2, x)
  | .const w, want, M, x, _ => by
    rw [World.eval, Expr.value]
    rfl
  | .place a, want, M, x, _ => by
    rw [World.eval, Expr.value]
    cases want with
    | false => rfl
    | true => rw [if_pos rfl, if_pos rfl, bare_read]
  | .index b i, want, M, x, h => by
    obtain ⟨hb, hi⟩ := (Bool.and_eq_true _ _).mp h
    rw [World.eval, Run.bind_of_ok (eval_plain b true M x hb),
      Run.bind_of_ok (eval_plain i true _ x hi), Expr.value]
    cases want with
    | false => rfl
    | true =>
      rw [if_pos rfl, bare_read]
      rfl
  | .assign d v, want, M, x, h => by
    obtain ⟨hd, hv⟩ := (Bool.and_eq_true _ _).mp h
    rw [World.eval, Run.bind_of_ok (eval_plain d false M x hd),
      Run.bind_of_ok (eval_plain v true _ x hv), Run.bind_of_ok (bare_write _ _ _), Expr.value]
    rfl
  | .addAssign d v, want, M, x, h => by
    obtain ⟨hd, hv⟩ := (Bool.and_eq_true _ _).mp h
    rw [World.eval, Run.bind_of_ok (eval_plain d false M x hd),
      Run.bind_of_ok (eval_plain v true _ x hv), Run.bind_of_ok (bare_read _ _),
      Run.bind_of_ok (bare_write _ _ _), Expr.value]
    rfl
  | .binary op l r, want, M, x, h => by
    obtain ⟨hl, hr⟩ := (Bool.and_eq_true _ _).mp h
    rw [World.eval, Run.bind_of_ok (eval_plain l true M x hl),
      Run.bind_of_ok (eval_plain r true _ x hr), Expr.value]
    rfl
  | .array _ _, _, _, _, h | .call _ _, _, _, _, h => by cases h

/-- Its code needs no stack. -/
theorem words_plain : ∀ e : Expr, e.plain = true → (World.bare σ sp).words e = 0
  | .const _, _ | .place _, _ => by rw [World.words]
  | .index a b, h | .assign a b, h | .addAssign a b, h | .binary _ a b, h => by
    obtain ⟨ha, hb⟩ := (Bool.and_eq_true _ _).mp h
    rw [World.words, words_plain a ha, words_plain b hb]
    rfl
  | .array _ _, h | .call _ _, h => by cases h

end Bare

/-! ## Its code -/

/-- The machine `m'` has the value of the expression in the target and its memory; the registers
    that are held are as in `m`, and so are those of the caller that are not recorded. -/
structure Yields (treg : X64Reg) (want : Bool) (e : Expr) (s s' : GenState) (m m' : Machine) :
    Prop where
  value : m'.regs treg = (e.value want m.mem).1
  mem : m'.mem = (e.value want m.mem).2
  held : ∀ q, q ≠ treg → hasReg s.fn.busy q = true → m'.regs q = m.regs q
  saved : ∀ q, q.calleeSaved = true → hasReg s'.fn.csUsed q = false → m'.regs q = m.regs q

section Expressions

variable {σ : Type} {ext : Reg → Machine → σ → Option (Machine × σ)} {L : Layout}
  {l rest : List Node} {e : Expr} {treg : X64Reg} {s s' : GenState}

/-- In the world without calls, evaluated code yields the value. -/
theorem Evaluates.yields {want : Bool} {m : Machine} (hplain : e.plain = true)
    (h : Evaluates (World.bare σ (m.regs .rsp)) ext 0
      ((World.bare σ (m.regs .rsp)).eval want e) treg rest s s') (x : σ) {bytes : Bytes}
    (hbuf : s'.buf = s.buf ++ bytes) :
    ∃ m', Through ext bytes m x m' x ∧ Yields treg want e s s' m m' := by
  obtain ⟨code, hem, hdoes⟩ := h.code
  obtain rfl : code = bytes := List.append_cancel_left (hem.buf.symm.trans hbuf)
  have htop : (World.bare σ (m.regs .rsp)).stack.top 0 = m.regs .rsp := BitVec.add_zero _
  have hstep : InStep (World.bare σ (m.regs .rsp)).stack 0 m m.mem := ⟨htop.symm, fun _ _ => rfl⟩
  obtain ⟨m', hrun, hstep', -, hkeep, hvalue⟩ := hdoes 0 (Nat.le_refl _) (Nat.zero_le _)
    (fun hcalm => absurd bare_calm hcalm) m m.mem x _ _ _ hstep trivial
    (eval_plain e want m.mem x hplain)
  have hsp : m'.regs .rsp = m.regs .rsp := hstep'.top.trans htop
  refine ⟨m', hrun, hvalue, funext fun a => hstep'.agree a (Nat.not_lt_zero _), ?_, ?_⟩
  · intro q hq hbusy
    by_cases hne : q = .rsp
    · rw [hne, hsp]
    · exact hkeep q ⟨hne, .inr ⟨bare_calm, hq, hbusy⟩⟩
  · intro q hsaved hfresh
    by_cases hne : q = .rsp
    · rw [hne, hsp]
    · exact hkeep q ⟨hne, .inl ⟨hsaved, .inr (.inr hfresh)⟩⟩

/-- **The code of an expression without calls gives its value.** From nodes that are read as `e`,
    `codegen_expr` takes these nodes, leaves the registers that are held as they are, and emits code
    that yields `e` on every machine; else it has given up with the exit code 1. -/
theorem codegenExpr_yields (ext : Reg → Machine → σ → Option (Machine × σ)) {n : Nat}
    {sreg : Option X64Reg} (h : Reads L s.cup l e) (hplain : e.plain = true)
    (hs : s.range = l ++ rest) (hn : l.length < n) (ht : treg.calleeSaved = false) :
    (∀ r s', codegenExpr L n treg sreg s = .ok r s' → r.1 = 0 ∧ s'.range = rest ∧
      s'.fn.busy = s.fn.busy ∧ ∃ bytes, s'.buf = s.buf ++ bytes ∧ ∀ m (x : σ), ∃ m',
        Through ext bytes m x m' x ∧ Yields treg sreg.isSome e s s' m m') ∧
    ∀ stop s', codegenExpr L n treg sreg s = .stop stop s' → stop = .exit 1 := by
  obtain ⟨n, rfl⟩ : ∃ i, n = i + 1 := ⟨n - 1, by omega⟩
  have hsat : ∀ sp : Word, (codegenExpr L (n + 1) treg sreg).Sat s (fun r s' => r.1 = 0 ∧
      Evaluates (World.bare σ sp) ext ((World.bare σ sp).words e)
        ((World.bare σ sp).eval sreg.isSome e) treg rest s s') GivesUp :=
    fun sp => h.compiles bare_callsAs n (by omega) treg sreg s rest ht ⟨s.cup.trace, rfl⟩ hs
  refine ⟨fun r s' hok => ?_, fun e s' hstop => (Run.sat_of_stop hstop).mp (hsat 0)⟩
  obtain ⟨hr, h₀⟩ := (Run.sat_of_ok hok).mp (hsat 0)
  obtain ⟨bytes, hem, -⟩ := h₀.code
  refine ⟨hr, h₀.range, h₀.busy, bytes, hem.buf, fun m x => ?_⟩
  have hm := ((Run.sat_of_ok hok).mp (hsat (m.regs .rsp))).2
  rw [words_plain e hplain] at hm
  exact hm.yields hplain x hem.buf

end Expressions

/-- `x = (x + 3) * p[1 < x]`, with `x` at the address 8 and `p` at 16. -/
def scaled : Expr :=
  .assign (.place 8) (.binary .mul (.binary .add (.place 8) (.const 3))
    (.index (.place 16) (.binary .less (.const 1) (.place 8))))

/-- Its nodes. -/
def scaledNodes : List Node :=
  [.tok ⟨.tEq, 1, 1⟩, .tok ⟨.nAddress, 1, 1⟩, .value 8, .tok ⟨.tMul, 1, 1⟩, .tok ⟨.tAdd, 1, 1⟩,
    .tok ⟨.nAddress, 1, 1⟩, .value 8, .tok ⟨.tNumber, 1, 1⟩, .value 3, .tok ⟨.tOsb, 1, 1⟩,
    .tok ⟨.nAddress, 1, 1⟩, .value 16, .tok ⟨.tLess, 1, 1⟩, .tok ⟨.tNumber, 1, 1⟩, .value 1,
    .tok ⟨.nAddress, 1, 1⟩, .value 8]

theorem reads_scaled (L : Layout) (c : CUPState) : Reads L c scaledNodes scaled := by
  have hplace : ∀ a, Reads L c [.tok ⟨.nAddress, 1, 1⟩, .value a] (.place (BitVec.ofNat 64 a)) :=
    fun _ => .address rfl
  have hnumber : ∀ n, n < 2 ^ 64 →
      Reads L c [.tok ⟨.tNumber, 1, 1⟩, .value n] (.const (BitVec.ofNat 64 n)) :=
    fun _ h => .number rfl h
  have hop : ∀ op : BinOp, (Loc.mk op.token 1 1).token = op.token := fun _ => rfl
  have hsum := Reads.binary (hop .add) (hplace 8) (hnumber 3 (by decide))
  have hless := Reads.binary (hop .less) (hnumber 1 (by decide)) (hplace 8)
  exact .assign rfl (hplace 8) (.binary (hop .mul) hsum (.index rfl (hplace 16) hless))

/-- The registers `rax` and `rcx` are held. -/
def scaledGen : GenState where
  cup := {}
  range := scaledNodes
  fn := { busy := regBit .rax ||| regBit .rcx }

/-- `x` is 2, and `p` points to two words, of which the second one is 7. -/
def scaledMachine : Machine where
  regs := fun r => if r = .rax then 99 else 0
  mem := ((Mem.store (fun _ => 0) 8 2).store 16 64).store 72 7

theorem codegenExpr_yields_scaled : ∃ s' bytes m',
    codegenExpr ⟨4096, 8192⟩ 32 .rcx (some .rcx) scaledGen = .ok (0, none) s' ∧ s'.buf = bytes ∧
      Through adderExt bytes scaledMachine () m' () ∧ m'.regs .rcx = 35 ∧
      m'.mem.load 8 = 35 ∧ m'.regs .rax = 99 := by
  have hok : codegenExpr ⟨4096, 8192⟩ 32 .rcx (some .rcx) scaledGen =
      .ok (0, none) (codegenExpr ⟨4096, 8192⟩ 32 .rcx (some .rcx) scaledGen).state := by
    decide +kernel
  have hrange : scaledGen.range = scaledNodes ++ [] := rfl
  obtain ⟨-, -, -, bytes, hbuf, hcode⟩ := (codegenExpr_yields adderExt
    (reads_scaled ⟨4096, 8192⟩ scaledGen.cup) rfl hrange (by decide) rfl).1 _ _ hok
  obtain ⟨m', hrun, hyields⟩ := hcode scaledMachine ()
  refine ⟨_, bytes, m', hok, hbuf, hrun, ?_, ?_, hyields.held .rax (by decide) (by decide)⟩
  · rw [hyields.value]
    decide +kernel
  · rw [hyields.mem]
    decide +kernel

end Cup
