/-
  The calls that an expression makes (`T_CALL` in `codegen_expr`, `src/codegen/x64codegen.c`).

  An `Answer` is what a callee may do under the System V calling convention: it returns any value,
  leaves anything in the registers that are not the caller's, in the flags and in the memory, and
  hands back the rest. In `World.answering` the reference takes one answer for each call and
  notes the call. The machine is stricter: with `onScript`, a call that is not the next one of the
  noted calls, or that is made with a stack pointer, a register or an argument that is not as it
  should be, has no next state. So a run to the end of the code makes exactly these calls.

  Proved: `codegenExpr_calls`, for an expression in a function that was entered with the stack
  pointer 8 behind a multiple of 16. The conditions are those of the code of an expression
  (`Cup.Calling`); nothing is said where the answers do not suffice, or the expression itself
  touches the stack.
-/
import Cup.Calling
import Cup.Saved

namespace Cup

open Lib (Stop Run Res)
open Lib.X64

/-! ## Callees -/

/-- What a call does: its value, and what it leaves in the registers that a function need not hand
    back, in the memory and in the flags. -/
structure Answer where
  value : Word
  regs : Reg → Word
  mem : Mem
  flags : Option Flags

/-- The machine behind the call. The stack from the stack pointer on is the caller's. -/
def Answer.machine (S : Stack) (a : Answer) (m : Machine) : Machine where
  regs r := if r = .rax then a.value else if r.calleeSaved then m.regs r else a.regs r
  mem x :=
    if S.Has x ∧ Lib.X64.dist S.lo (m.regs .rsp) ≤ Lib.X64.dist S.lo x then m.mem x else a.mem x
  flags := a.flags

/-- The answers that are left, and calls: the callee and its arguments. -/
abbrev Script := List Answer × List (Word × List Word)

/-- The reference notes the calls. -/
def World.answering (S : Stack) : World Script where
  stack := S
  room := 0
  call
  | f, args, (_, (a :: as, done)) => some (a.value, (a.mem, (as, done ++ [(f, args)])))
  | _, _, (_, ([], _)) => none

/-- The reference expects the calls. -/
def World.expecting (S : Stack) : World Script where
  stack := S
  room := 0
  call
  | f, args, (_, (a :: as, c :: cs)) =>
    if c = (f, args) then some (a.value, (a.mem, (as, cs))) else none
  | _, _, _ => none

/-- In front of a call of `f`: the stack is aligned, RAX is 0, the callee is in R11 and the
    arguments are in their registers. -/
def AtCall (f : Word) (args : List Word) (m : Machine) : Prop :=
  (m.regs .rsp).toNat % 16 = 0 ∧ m.regs .rax = 0 ∧ m.regs .r11 = f ∧
    (sysvArgRegs.take args.length).map m.regs = args

instance (f : Word) (args : List Word) (m : Machine) : Decidable (AtCall f args m) :=
  inferInstanceAs (Decidable (_ ∧ _))

/-- The machine makes the next one of the calls. -/
def onScript (S : Stack) (r : Reg) (m : Machine) : Script → Option (Machine × Script)
  | (a :: as, (f, args) :: cs) =>
    if r = .r11 ∧ AtCall f args m then some (a.machine S m, (as, cs)) else none
  | _ => none

section Answers

variable {S : Stack} {a : Answer} {m : Machine} {k : Nat}

theorem dist_top_le (S : Stack) (k : Nat) : Lib.X64.dist S.lo (S.top k) ≤ k := by
  have hback : S.lo + BitVec.ofNat 64 k - S.lo = BitVec.ofNat 64 k := by
    rw [BitVec.add_comm, BitVec.add_sub_cancel]
  rw [Lib.X64.dist, Stack.top, hback, BitVec.toNat_ofNat]
  exact Nat.mod_le _ _

/-- An answer hands back the stack. -/
theorem Answer.inStep {M : Mem} (h : InStep S k m M) : InStep S k (a.machine S m) a.mem where
  top := h.top
  agree _ hx := if_neg fun hhas => hx hhas.1

theorem Answer.keeps (h : m.regs .rsp = S.top k) : S.Keeps k m.mem (a.machine S m).mem := by
  intro x hx hk
  have hle : Lib.X64.dist S.lo (m.regs .rsp) ≤ Lib.X64.dist S.lo x := by
    rw [h]
    exact (dist_top_le S k).trans hk
  exact if_pos ⟨hx, hle⟩

theorem Answer.saved {r : Reg} (h : r.calleeSaved = true) :
    (a.machine S m).regs r = m.regs r := by
  have hne : r ≠ .rax := by
    rintro rfl
    cases h
  exact (if_neg hne).trans (if_pos h)

/-- The machine answers as the reference that expects the calls. -/
theorem onScript_callsAs (S : Stack) : CallsAs (World.expecting S) (onScript S) := by
  rintro k m M ⟨as, cs⟩ args v M' x' hm - - hal hrax - hargs hcall
  cases as with
  | nil => cases hcall
  | cons a as =>
    cases cs with
    | nil => cases hcall
    | cons c cs =>
      have hcall : (if c = (m.regs .r11, args) then some (a.value, (a.mem, (as, cs))) else none) =
          some (v, (M', x')) := hcall
      split at hcall
      · rename_i hc
        cases hcall
        subst hc
        have hat : AtCall (m.regs .r11) args m := ⟨hm.top ▸ hal, hrax, rfl, hargs⟩
        exact ⟨a.machine S m, if_pos ⟨rfl, hat⟩, rfl, Answer.inStep hm, Answer.keeps hm.top,
          fun r hr => Answer.saved hr⟩
      · cases hcall

end Answers

/-! ## The reference twice -/

/-- Where `f` notes calls, `g` goes on with the same value when it expects them. -/
def Mirrors {α : Type} (f g : Meaning Script α) : Prop :=
  ∀ M as done v M' as' done', f (M, (as, done)) = .ok v (M', (as', done')) →
    ∃ cs, done' = done ++ cs ∧ ∀ more, g (M, (as, cs ++ more)) = .ok v (M', (as', more))

section Mirrors

variable {S : Stack} {α β : Type}

theorem mirrors_pure (v : α) : Mirrors (pure v) (pure v) := by
  intro M as done v' M' as' done' h
  cases h
  exact ⟨[], (List.append_nil done).symm, fun _ => rfl⟩

theorem mirrors_stop (e : Stop) (g : Meaning Script α) : Mirrors (Run.stop e) g := by
  intro M as done v M' as' done' h
  cases h

theorem Mirrors.bind {f g : Meaning Script α} {f' g' : α → Meaning Script β} (h : Mirrors f g)
    (h' : ∀ v, Mirrors (f' v) (g' v)) : Mirrors (f >>= f') (g >>= g') := by
  intro M as done v M' as' done' hf
  obtain ⟨u, ⟨M₁, as₁, done₁⟩, hu, hv⟩ := Run.bind_eq_ok.mp hf
  obtain ⟨cs, rfl, hg⟩ := h M as done u M₁ as₁ done₁ hu
  obtain ⟨cs', rfl, hg'⟩ := h' u M₁ as₁ _ v M' as' done' hv
  refine ⟨cs ++ cs', List.append_assoc _ _ _, fun more => ?_⟩
  rw [List.append_assoc]
  exact Run.bind_eq_ok.mpr ⟨u, _, hg _, hg' more⟩

theorem mirrors_read (a : Word) :
    Mirrors ((World.answering S).stack.read a) ((World.expecting S).stack.read a) := by
  intro M as done v M' as' done' h
  obtain ⟨hmiss, rfl, hstate⟩ := Stack.read_inv h
  cases hstate
  exact ⟨[], (List.append_nil done).symm, fun more => congrFun (if_pos hmiss) _⟩

theorem mirrors_write (a v : Word) :
    Mirrors ((World.answering S).stack.write a v) ((World.expecting S).stack.write a v) := by
  intro M as done u M' as' done' h
  obtain ⟨hmiss, hstate⟩ := Stack.write_inv h
  cases hstate
  exact ⟨[], (List.append_nil done).symm, fun more => congrFun (if_pos hmiss) _⟩

theorem mirrors_run (f : Word) (args : List Word) :
    Mirrors ((World.answering S).run f args) ((World.expecting S).run f args) := by
  intro M as done v M' as' done' h
  cases as with
  | nil => cases h
  | cons a as =>
    cases h
    refine ⟨[(f, args)], rfl, fun more => ?_⟩
    have hcall : (World.expecting S).call f args (M, (a :: as', (f, args) :: more)) =
        some (a.value, (a.mem, (as', more))) := if_pos rfl
    rw [World.run, List.cons_append, List.nil_append, hcall]

theorem leafValue_mirrors (e : Expr) :
    Mirrors ((World.answering S).leafValue e) ((World.expecting S).leafValue e) := by
  cases e with
  | const w => exact mirrors_pure w
  | place a => exact mirrors_read a
  | _ => exact mirrors_stop _ _

theorem lastValue_mirrors (e : Expr) (v : Option Word) :
    Mirrors ((World.answering S).lastValue e v) ((World.expecting S).lastValue e v) := by
  cases v with
  | none => exact leafValue_mirrors e
  | some v => exact mirrors_pure v

theorem argValues_mirrors (es : List Expr) (vs : List (Option Word)) :
    Mirrors ((World.answering S).argValues es vs) ((World.expecting S).argValues es vs) := by
  induction es generalizing vs with
  | nil => exact mirrors_pure []
  | cons e es ih =>
    cases vs with
    | nil => exact mirrors_pure []
    | cons v vs =>
      exact (lastValue_mirrors e v).bind fun a => (ih vs).bind fun rest => mirrors_pure (a :: rest)

mutual

/-- Every evaluation makes the calls that it expects. -/
theorem eval_mirrors : ∀ (want : Bool) (e : Expr),
    Mirrors ((World.answering S).eval want e) ((World.expecting S).eval want e)
  | want, .const w => by
    rw [World.eval, World.eval]
    exact mirrors_pure w
  | want, .place a => by
    rw [World.eval, World.eval]
    cases want with
    | false => exact mirrors_pure a
    | true => exact mirrors_read a
  | want, .array data es => by
    rw [World.eval, World.eval]
    exact (storeAll_mirrors data 0 es).bind fun _ => mirrors_pure data
  | want, .index b i => by
    rw [World.eval, World.eval]
    refine (eval_mirrors true b).bind fun p => (eval_mirrors true i).bind fun k => ?_
    cases want with
    | false => exact mirrors_pure (p + k * 8)
    | true => exact mirrors_read (p + k * 8)
  | want, .assign d v => by
    rw [World.eval, World.eval]
    exact (eval_mirrors false d).bind fun a => (eval_mirrors true v).bind fun x =>
      (mirrors_write a x).bind fun _ => mirrors_pure x
  | want, .addAssign d v => by
    rw [World.eval, World.eval]
    exact (eval_mirrors false d).bind fun a => (eval_mirrors true v).bind fun x =>
      (mirrors_read a).bind fun old => (mirrors_write a (old + x)).bind fun _ =>
        mirrors_pure (old + x)
  | want, .binary op l r => by
    rw [World.eval, World.eval]
    exact (eval_mirrors true l).bind fun a => (eval_mirrors true r).bind fun b =>
      mirrors_pure (op.apply a b)
  | want, .call f args => by
    rw [World.eval, World.eval]
    have hrest := fun v => (evalFirst_mirrors args).bind fun vs =>
      (argValues_mirrors (S := S) args vs).bind fun xs =>
        (lastValue_mirrors (S := S) f v).bind fun p => mirrors_run (S := S) p xs
    split
    · exact (mirrors_pure none).bind hrest
    · exact (eval_mirrors true f).bind fun p => (mirrors_pure (some p)).bind hrest

theorem evalFirst_mirrors : ∀ es : List Expr,
    Mirrors ((World.answering S).evalFirst es) ((World.expecting S).evalFirst es)
  | [] => by
    rw [World.evalFirst, World.evalFirst]
    exact mirrors_pure []
  | e :: es => by
    rw [World.evalFirst, World.evalFirst]
    have hrest := fun v => (evalFirst_mirrors es).bind fun vs =>
      mirrors_pure (v :: vs : List (Option Word))
    split
    · exact (mirrors_pure none).bind hrest
    · exact (eval_mirrors true e).bind fun x => (mirrors_pure (some x)).bind hrest

theorem storeAll_mirrors (data : Word) : ∀ (i : Nat) (es : List Expr),
    Mirrors ((World.answering S).storeAll data i es) ((World.expecting S).storeAll data i es)
  | i, [] => by
    rw [World.storeAll, World.storeAll]
    exact mirrors_pure ()
  | i, e :: es => by
    rw [World.storeAll, World.storeAll]
    exact (eval_mirrors true e).bind fun x => (mirrors_write _ x).bind fun _ =>
      storeAll_mirrors data (i + 1) es

end

end Mirrors

/-! ## The calls of an expression -/

section Expressions

variable {S : Stack} {L : Layout} {l rest : List Node} {e : Expr} {treg : X64Reg}
  {s s' : GenState} {n k d : Nat} {sp : Word} {used : BitVec 16} {m : Machine} {M : Mem}

/-- In a function that was entered with the stack pointer `sp`, behind its prologue and `d` pushed
    words. -/
def Entered (sp : Word) (used : BitVec 16) (d : Nat) (m : Machine) : Prop :=
  sp.toNat % 16 = 8 ∧ m.regs .rsp = sp - BitVec.ofNat 64 (8 * (1 + frameWords used + d))

theorem Entered.aligned (h : Entered sp used d m) (hm : InStep S k m M) : Aligned S k d := by
  obtain ⟨hsp, hd⟩ := h
  have hframe : frameWords used = 0 ∨ frameWords used = 6 := by
    unfold frameWords
    split
    · exact .inr rfl
    · exact .inl rfl
  rw [hm.top] at hd
  rw [Aligned, hd, BitVec.toNat_sub, BitVec.toNat_ofNat]
  omega

/-- A generator that was `n` words deep is so again. -/
theorem Deeper.same (h : Deeper 0 s s') (hs : s.fn.depth < 2 ^ 32) : s'.fn.depth = s.fn.depth := by
  have hd := h.depth
  have hbound := h.bound hs
  omega

/-- **The code of an expression makes the calls of the expression**, whatever they answer: each one
    with an aligned stack, 0 in RAX, the callee in R11 and the arguments in their registers. Then
    the value is in the target, and the stack pointer and the depth are what they were. -/
theorem codegenExpr_calls {sreg : Option X64Reg} (h : Reads L s.cup l e)
    (hs : s.range = l ++ rest) (hn : l.length < n) (ht : treg.calleeSaved = false) :
    (∀ r s', codegenExpr L n treg sreg s = .ok r s' → r.1 = 0 ∧ s'.range = rest ∧
      (s.fn.depth < 2 ^ 32 → s'.fn.depth = s.fn.depth) ∧ ∃ bytes, s'.buf = s.buf ++ bytes ∧
        ∀ (S : Stack) sp used k m M answers v M' left calls, Entered sp used s.fn.depth m →
          InStep S k m M → 8 * (World.expecting S).words e ≤ k → k ≤ S.size →
          (World.answering S).eval sreg.isSome e (M, (answers, [])) =
            .ok v (M', (left, calls)) →
          ∃ m', Through (onScript S) bytes m (answers, calls) m' (left, []) ∧
            m'.regs treg = v ∧ m'.regs .rsp = m.regs .rsp ∧ S.Agree m'.mem M' ∧
            S.Keeps k m.mem m'.mem) ∧
    ∀ stop s', codegenExpr L n treg sreg s = .stop stop s' → stop = .exit 1 := by
  obtain ⟨n, rfl⟩ : ∃ i, n = i + 1 := ⟨n - 1, by omega⟩
  have hsat : ∀ S : Stack, (codegenExpr L (n + 1) treg sreg).Sat s (fun r s' => r.1 = 0 ∧
      Evaluates (World.expecting S) (onScript S) ((World.expecting S).words e)
        ((World.expecting S).eval sreg.isSome e) treg rest s s') GivesUp :=
    fun S => h.compiles (onScript_callsAs S) n (by omega) treg sreg s rest ht ⟨s.cup.trace, rfl⟩ hs
  have hfirst := hsat ⟨0, 0, Nat.zero_le _⟩
  refine ⟨fun r s' hok => ?_, fun e s' hstop => (Run.sat_of_stop hstop).mp hfirst⟩
  obtain ⟨hr, h₀⟩ := (Run.sat_of_ok hok).mp hfirst
  obtain ⟨bytes, hem, -⟩ := h₀.code
  refine ⟨hr, h₀.range, h₀.depth.same, bytes, hem.buf, ?_⟩
  intro S sp used k m M answers v M' left calls hentered hm hk hsize heval
  obtain ⟨code, hem', hdoes⟩ := ((Run.sat_of_ok hok).mp (hsat S)).2.code
  obtain rfl : code = bytes := List.append_cancel_left (hem'.buf.symm.trans hem.buf)
  obtain ⟨cs, hcalls, hexpects⟩ := eval_mirrors sreg.isSome e M answers [] v M' left calls heval
  obtain rfl : calls = cs := hcalls
  have hf := hexpects []
  rw [List.append_nil] at hf
  obtain ⟨m', hrun, hm', hkeeps, -, hv⟩ :=
    hdoes k hk hsize (fun _ => hentered.aligned hm) m M _ v M' _ hm trivial hf
  exact ⟨m', hrun, hv, hm'.top.trans hm.top.symm, hm'.agree, hkeeps⟩

end Expressions

/-- `f(g(1) + x, x)`, with `f` at the address 8, `g` at 16 and `x` at 24. -/
def nestedCalls : Expr :=
  .call (.place 8) [.binary .add (.call (.place 16) [.const 1]) (.place 24), .place 24]

/-- Its nodes. -/
def nestedNodes : List Node :=
  [.tok ⟨.tCall, 1, 1⟩, .tok ⟨.nAddress, 1, 1⟩, .value 8, .tok ⟨.tComma, 1, 1⟩, .value 2,
    .tok ⟨.tAdd, 1, 1⟩, .tok ⟨.tCall, 1, 1⟩, .tok ⟨.nAddress, 1, 1⟩, .value 16,
    .tok ⟨.tComma, 1, 1⟩, .value 1, .tok ⟨.tNumber, 1, 1⟩, .value 1, .tok ⟨.nAddress, 1, 1⟩,
    .value 24, .tok ⟨.nAddress, 1, 1⟩, .value 24]

theorem reads_nestedCalls (L : Layout) (c : CUPState) : Reads L c nestedNodes nestedCalls := by
  have hplace : ∀ a, Reads L c [.tok ⟨.nAddress, 1, 1⟩, .value a] (.place (BitVec.ofNat 64 a)) :=
    fun _ => .address rfl
  have hone : ∀ q ∈ ([([.tok ⟨.tNumber, 1, 1⟩, .value 1], .const 1)] : List (List Node × Expr)),
      Reads L c q.1 q.2 := by
    intro q hq
    rw [List.mem_singleton.mp hq]
    exact .number rfl (by decide)
  have htok : ∀ t, (Loc.mk t 1 1).token = t := fun _ => rfl
  have hop : ∀ op : BinOp, (Loc.mk op.token 1 1).token = op.token := fun _ => rfl
  have hinner := Reads.call (htok .tCall) (htok .tComma) (hplace 16) hone
  have hsum := Reads.binary (hop .add) hinner (hplace 24)
  have hargs : ∀ q ∈ ([(_, _), ([.tok ⟨.nAddress, 1, 1⟩, .value 24], .place 24)] :
      List (List Node × Expr)), Reads L c q.1 q.2 :=
    List.forall_mem_cons.mpr ⟨hsum, List.forall_mem_singleton.mpr (hplace 24)⟩
  exact .call (htok .tCall) (htok .tComma) (hplace 8) hargs

/-- A word is on the stack already. -/
def nestedGen : GenState where
  cup := {}
  range := nestedNodes
  fn := { depth := 1 }

/-- The function was entered with 69624 in RSP; the callees are 100 and 200, and `x` is 3. -/
def nestedMachine : Machine where
  regs := fun r => if r = .rsp then 69608 else 0
  mem := ((Mem.store (fun _ => 0) 8 100).store 16 200).store 24 3

/-- A call that returns `v` and overwrites every register that it may. -/
def nestedAnswer (v : Word) : Answer where
  value := v
  regs := fun _ => 77
  mem := nestedMachine.mem
  flags := none

theorem codegenExpr_calls_nested : ∃ s' bytes m',
    codegenExpr ⟨4096, 8192⟩ 32 .rax (some .rax) nestedGen = .ok (0, none) s' ∧
      s'.buf = bytes ∧ s'.fn.depth = 1 ∧ Through (onScript adderWorld.stack) bytes nestedMachine
        ([nestedAnswer 5, nestedAnswer 9], [(200, [1]), (100, [8, 3])]) m' ([], []) ∧
      m'.regs .rax = 9 ∧ m'.regs .rsp = 69608 := by
  have hok : codegenExpr ⟨4096, 8192⟩ 32 .rax (some .rax) nestedGen =
      .ok (0, none) (codegenExpr ⟨4096, 8192⟩ 32 .rax (some .rax) nestedGen).state := by
    decide +kernel
  have hrange : nestedGen.range = nestedNodes ++ [] := rfl
  obtain ⟨-, -, hdepth, bytes, hbuf, hcode⟩ := (codegenExpr_calls
    (reads_nestedCalls ⟨4096, 8192⟩ nestedGen.cup) hrange (by decide) rfl).1 _ _ hok
  have heval : (World.answering adderWorld.stack).eval true nestedCalls
      (nestedMachine.mem, ([nestedAnswer 5, nestedAnswer 9], [])) =
      .ok 9 (nestedMachine.mem, ([], [(200, [1]), (100, [8, 3])])) := by
    simp only [nestedCalls, World.eval, World.evalFirst, World.lastValue, World.leafValue,
      Expr.isLeaf, Run.pure_bind']
    rfl
  have hneed : (World.expecting adderWorld.stack).words nestedCalls = 3 := by
    simp only [nestedCalls, World.words, World.wordsAll]
    rfl
  have hentered : Entered 69624 0 nestedGen.fn.depth nestedMachine := by
    unfold Entered
    decide
  obtain ⟨m', hrun, hv, hsp, -, -⟩ := hcode adderWorld.stack 69624 0 4072 nestedMachine
    nestedMachine.mem _ 9 _ _ _ hentered ⟨rfl, fun _ _ => rfl⟩ (by rw [hneed]; decide) (by decide)
    heval
  exact ⟨_, bytes, m', hok, hbuf, hdepth (by decide), hrun, hv, hsp⟩

end Cup
