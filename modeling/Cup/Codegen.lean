/-
  The code generator (`src/codegen/x64codegen.c`): `codegen_expr` reads one tree of the node
  stream and appends its code to the buffer, `codegen_func` wraps a body into a function, and
  `codegen` (`src/moduler.c`) generates a module and writes the function addresses.

  The range is the list of the nodes that are left, the buffer the list of its bytes. `fn_state`
  is static in the source and part of the state here. `codegen_expr` is recursive; the model
  counts the depth. `stores` and `faults` are ghost fields: for each assignment `stores` has the
  numbers of nodes left in front of the destination, behind it, and behind the value; `faults`
  has the exits at a stream that the resolver should not have left.
-/
import Cup.Emit
import Cup.Vars

namespace Cup

open Lib (Stop Run)
open Lib.X64 (Reg Cond)

/-- Where the blocks of the compiler are in memory: `state->data` and `state->vars.data`. -/
structure Layout where
  data : Nat
  vars : Nat

/-- `(uint64_t)getData(state, i)`. -/
def Layout.dataPtr (L : Layout) (s : CUPState) (i : Nat) : Nat :=
  match getData s i with
  | none => 0
  | some off => L.data + off

/-- `&v->value` of a variable. -/
def Layout.valuePtr (L : Layout) (v : Nat) : Nat := L.vars + (sizeofCVariable * v + 16)

/-- `FnState`: `busy` and `cs_used` have a bit for each register, `depth` is a `uint32_t`. -/
structure FnState where
  busy : BitVec 16 := 0
  csUsed : BitVec 16 := 0
  depth : Nat := 0
  deriving DecidableEq, Repr

/-- The `size_t` that a `CRealloc` points to: the entry of the module, or the value of a
    variable. -/
inductive Dest where
  | init
  | var (v : Nat)
  deriving DecidableEq, Repr

/-- Ghost: a read behind the end of the stream ("Incorrect Nodes"), and an "unresolved T_DOT". -/
inductive StreamFault where
  | nodes
  | dot
  deriving DecidableEq, Repr

/-- The state of the generator: its arguments and what it writes to. -/
structure GenState where
  cup : CUPState
  buf : Bytes := []
  fn : FnState := {}
  range : List Node := []
  returns : List Nat := []
  reallocs : List (Dest × Nat) := []
  stores : List (Nat × Nat × Nat) := []
  faults : List StreamFault := []
  deriving DecidableEq, Repr

/-- Code of the generator. -/
abbrev Gen := Run GenState

/-- `codegen_expr`: its target register and mode, `none` for `ANY`; the number of trees that
    still belong to the expression, and the variable written to `*rvalue`. -/
abbrev GenExpr := X64Reg → Option X64Reg → Gen (Nat × Option Nat)

/-- `emit`. -/
def emit (bytes : Bytes) : Gen Unit := Run.modify fun s => { s with buf := s.buf ++ bytes }

/-- `exit(n)`. -/
def genExit {α : Type} (n : Nat) : Gen α := Run.stop (.exit n)

/-- `exit(1)` at a stream that is no tree of resolved nodes. -/
def streamExit {α : Type} (f : StreamFault) : Gen α := do
  Run.modify fun s => { s with faults := s.faults ++ [f] }
  genExit 1

/-! ## Registers -/

/-- The bit of a register. -/
def regBit (r : X64Reg) : BitVec 16 := BitVec.twoPow 16 r.num

/-- `bits & (1u << r)`. -/
def hasReg (bits : BitVec 16) (r : X64Reg) : Bool := bits.getLsbD r.num

/-- `pool_scratch`. -/
def poolScratch : List X64Reg := [.r10, .r9, .r8, .rsi, .rdi, .rcx, .rdx]

/-- `pool_saved`. -/
def poolSaved : List X64Reg := [.r12, .r13, .r14, .r15, .rbx]

/-- `sysv_arg_regs`. -/
def sysvArgRegs : List X64Reg := [.rdi, .rsi, .rdx, .rcx, .r8, .r9]

/-- `reg_pick`. -/
def regPick (pool : List X64Reg) (avoid : X64Reg) : Gen X64Reg := do
  let s ← Run.get
  match pool.find? fun r => r ≠ avoid ∧ ¬ hasReg s.fn.busy r with
  | none => genExit 1
  | some r =>
    Run.set { s with fn := { s.fn with busy := s.fn.busy ||| regBit r } }
    pure r

/-- `pick_scratch`. -/
def pickScratch (avoid : X64Reg) : Gen X64Reg := regPick poolScratch avoid

/-- `pick_saved`. -/
def pickSaved (avoid : X64Reg) : Gen X64Reg := do
  let r ← regPick poolSaved avoid
  Run.modify fun s => { s with fn := { s.fn with csUsed := s.fn.csUsed ||| regBit r } }
  pure r

/-- `reg_free`. -/
def regFree (r : X64Reg) : Gen Unit :=
  Run.modify fun s => { s with fn := { s.fn with busy := s.fn.busy &&& ~~~ regBit r } }

/-- `emit_push`. -/
def emitPush (r : X64Reg) : Gen Unit := do
  emit (pushBytes r)
  Run.modify fun s => { s with fn := { s.fn with depth := (s.fn.depth + 1) % 2 ^ 32 } }

/-- `emit_pop`. -/
def emitPop (r : X64Reg) : Gen Unit := do
  emit (popBytes r)
  Run.modify fun s =>
    { s with fn := { s.fn with depth := (s.fn.depth + (2 ^ 32 - 1)) % 2 ^ 32 } }

/-! ## Jumps -/

/-- `emit_jmp_rel32`: the offset to patch. -/
def emitJmpRel32 : Gen Nat := do
  emit jmpOpcode
  let off := (← Run.get).buf.length
  emit (emiti32 0)
  pure off

/-- `emit_jcc_rel32`: the offset to patch. -/
def emitJccRel32 (cc : Cond) : Gen Nat := do
  emit (jccOpcode cc)
  let off := (← Run.get).buf.length
  emit (emiti32 0)
  pure off

/-- `memcpy(buf->data + at, bytes, …)`. -/
def patchBytes (at_ : Nat) (bytes : Bytes) : Gen Unit := do
  let s ← Run.get
  if at_ + bytes.length ≤ s.buf.length then
    Run.set { s with buf := s.buf.take at_ ++ bytes ++ s.buf.drop (at_ + bytes.length) }
  else Run.stop (.fault "write outside the buffer")

/-- `patch_rel`. -/
def patchRel (patch target : Nat) : Gen Unit := do
  let delta : Int := (target : Int) - ((patch : Int) + 4)
  if delta < -2 ^ 31 ∨ (int32Max : Int) < delta then genExit 1
  else patchBytes patch (emiti32 delta)

/-! ## The node stream -/

/-- `getNode`. -/
def getNode : Gen Node := do
  let s ← Run.get
  match s.range with
  | [] => streamExit .nodes
  | n :: rest =>
    Run.set { s with range := rest }
    pure n

/-- `getNode(range)->token`. -/
def getNodeToken : Gen CTType := do
  match ← getNode with
  | .tok loc => pure loc.token
  | _ => Run.stop (.fault "a payload read as a token")

/-- `getNode(range)->value`. -/
def getNodeValue : Gen Nat := do
  match ← getNode with
  | .value v => pure v
  | _ => Run.stop (.fault "a payload read as a number")

/-- `peekNode(range)->token`. -/
def peekToken : Gen CTType := do
  match (← Run.get).range with
  | [] => streamExit .nodes
  | .tok loc :: _ => pure loc.token
  | _ => Run.stop (.fault "a payload read as a token")

/-- `range->it += n`. -/
def skipNodes (n : Nat) : Gen Unit := Run.modify fun s => { s with range := s.range.drop n }

/-- `leaf_size`. -/
def leafSize : List Node → Nat
  | [] => 0
  | n :: rest =>
    match n.token? with
    | some .tNumber | some .tString | some .tMstring | some .tIdentifier | some .nAddress =>
      if 1 ≤ rest.length then 2 else 0
    | some .tThis => 1
    | _ => 0

/-- `is_small_imm`. -/
def isSmallImm : List Node → Option Nat
  | .tok loc :: .value v :: _ =>
    if loc.token = .tNumber ∧ v ≤ int32Max then some v else none
  | _ => none

variable (L : Layout)

/-- The lookup of `leaf_address`. The entry that an identifier stands for is recorded. -/
def lookupVar (name : Bytes) : Gen Nat := do
  let s ← Run.get
  match ← Run.lift (varLookup s.cup name s.cup.scope) with
  | none => genExit 1
  | some v => pure v

/-- `leaf_address`: the address and the variable. -/
def leafAddress : Gen (Option (Nat × Option Nat)) := do
  let s ← Run.get
  match s.range with
  | [] => pure none
  | n :: rest =>
    match n.token? with
    | some .nAddress =>
      match rest with
      | [] => pure none
      | .value a :: _ => pure (some (a, none))
      | _ => Run.stop (.fault "a payload read as a number")
    | some .tIdentifier =>
      match rest with
      | [] => pure none
      | .svalue name :: _ =>
        let v ← lookupVar name.bytes
        Run.modify fun t =>
          { t with cup := { t.cup with trace := t.cup.trace ++ [.entry name s.cup.scope (some v)] } }
        pure (some (L.valuePtr v, some v))
      | _ => Run.stop (.fault "a payload read as a string")
    | some .tThis =>
      let v ← lookupVar [36]
      pure (some (L.valuePtr v, some v))
    | _ => pure none

/-- `expect_single`. -/
def expectSingle (count : Nat) : Gen Unit := if count ≠ 0 then genExit 1 else pure ()

section Cases

variable (rec : GenExpr)

/-- `expect_single(EXPR(treg, sreg, &var))`. -/
def single (treg : X64Reg) (sreg : Option X64Reg) : Gen (Option Nat) := do
  let (count, var) ← rec treg sreg
  expectSingle count
  pure var

/-- `gen_leaf` of the nodes of a leaf. -/
def genLeaf (reg : X64Reg) (leaf : List Node) : Gen Unit := do
  let range := (← Run.get).range
  Run.modify fun s => { s with range := leaf }
  let _ ← rec reg (some reg)
  Run.modify fun s => { s with range := range }

/-- `gen_leaf` of the leaf at the start of the range, of `sz` nodes, and its consumption. -/
def takeLeaf (reg : X64Reg) (sz : Nat) : Gen Unit := do
  genLeaf rec reg ((← Run.get).range.take sz)
  skipNodes sz

/-! ## Operators -/

/-- `is_compare`. -/
def isCompare : CTType → Bool
  | .tLess | .tLesseq | .tEqeq => true
  | _ => false

/-- `compare_cc`. -/
def compareCc : CTType → Cond
  | .tLess => .l
  | .tLesseq => .le
  | _ => .e

/-- `while ((1 << sh) != imm) sh++` from `sh` on, at most `n` times. -/
def shiftOf (imm : Nat) : Nat → Nat → Nat
  | 0, sh => sh
  | n + 1, sh => if 2 ^ sh ≠ imm then shiftOf imm n (sh + 1) else sh

/-- `gen_alu_imm`. -/
def genAluImm (t : CTType) (dst : X64Reg) (imm : Nat) : Gen Unit :=
  match t with
  | .tAdd => if imm ≠ 0 then emit (emitAluImm 0 dst imm) else pure ()
  | .tSub => if imm ≠ 0 then emit (emitAluImm 5 dst imm) else pure ()
  | .tMul =>
    if imm = 1 then pure ()
    else if 0 < imm ∧ imm &&& (imm - 1) = 0 then emit (emitShlImm dst (shiftOf imm 31 0))
    else emit (emitImulImm dst imm)
  | _ => genExit 1

/-- `gen_alu_rr`. -/
def genAluRr (t : CTType) (dst src : X64Reg) : Gen Unit :=
  match t with
  | .tAdd => emit (emitAddRr dst src)
  | .tSub => emit (emitSubRr dst src)
  | .tMul => emit (emitImulRr dst src)
  | _ => genExit 1

/-- The right operand of `gen_binary` and the operation; the register with the result. -/
def binaryRight (nt : CTType) (treg : X64Reg) : Gen X64Reg := do
  let range := (← Run.get).range
  match isSmallImm range with
  | some imm =>
    skipNodes 2
    if isCompare nt then emit (emitAluImm 7 treg imm) else genAluImm nt treg imm
    pure treg
  | none =>
    if leafSize range ≠ 0 then
      let r ← pickScratch treg
      takeLeaf rec r (leafSize range)
      if isCompare nt then emit (emitCmpRr treg r) else genAluRr nt treg r
      regFree r
      pure treg
    else
      -- a complex operand may call: the left value goes to a saved register
      let l ← pickSaved treg
      emit (emitMovRr l treg)
      let _ ← single rec treg (some treg)
      if isCompare nt then emit (emitCmpRr l treg) else genAluRr nt l treg
      regFree l
      pure l

/-- `gen_binary`; with `flagsOnly` the condition that means "true". -/
def genBinary (nt : CTType) (treg : X64Reg) (flagsOnly : Bool) : Gen Cond := do
  let _ ← single rec treg (some treg)
  let res ← binaryRight rec nt treg
  if isCompare nt then
    if ¬ flagsOnly then emit (emitSetccZx (compareCc nt) treg)
    pure (compareCc nt)
  else
    emit (emitMovRr treg res)
    pure .e

/-- `gen_jump_if_false`. -/
def genJumpIfFalse : Gen Nat := do
  let t ← peekToken
  if isCompare t then
    skipNodes 1
    let cc ← genBinary rec t .rax true
    emitJccRel32 (negCond cc)
  else
    let _ ← single rec .rax (some .rax)
    emit (emitTestRr .rax .rax)
    emitJccRel32 .e

/-! ## Expressions -/

/-- The leaves with an address: `T_THIS`, `N_VARIABLE`, `N_ADDRESS`. -/
def addressCase (t : CTType) (treg : X64Reg) (wantValue : Bool) : Gen (Option Nat) := do
  match ← leafAddress L with
  | none => genExit 1
  | some (addr, var) =>
    skipNodes (if t = .tThis then 1 else 2)
    if wantValue ∧ treg = .rax then emit (emitLoadRaxAbs addr)
    else
      emit (emitMovImm64 treg addr)
      if wantValue then emit (emitLoad treg treg 0)
    pure var

/-- The elements of an array literal from element `i` on. -/
def storeElements (p : X64Reg) : Nat → Nat → Gen Unit
  | _, 0 => pure ()
  | i, k + 1 => do
    match isSmallImm (← Run.get).range with
    | some imm =>
      skipNodes 2
      emit (emitStoreImm32 p (toInt32 (i * 8)) imm)
    | none =>
      let e ← pickScratch p
      let _ ← single rec e (some e)
      emit (emitStore p (toInt32 (i * 8)) e)
      regFree e
    storeElements p (i + 1) k

/-- `case N_ARRAY`. -/
def literalCase (treg : X64Reg) : Gen Unit := do
  let data ← getNodeValue
  if (← peekToken) ≠ .tComma then genExit 1
  else
    skipNodes 1
    let count ← getNodeValue
    let p ← pickSaved treg
    emit (emitMovImm64 p (L.dataPtr (← Run.get).cup data))
    storeElements rec p 0 count
    emit (emitMovRr treg p)
    regFree p

/-- `case T_OSB`. -/
def subscriptCase (treg : X64Reg) (wantValue : Bool) : Gen Unit := do
  let _ ← single rec treg (some treg)
  let range := (← Run.get).range
  match (isSmallImm range).filter (· ≤ int32Max / 8) with
  | some imm =>
    skipNodes 2
    if imm ≠ 0 then emit (emitAluImm 0 treg (imm * 8))
  | none =>
    if leafSize range ≠ 0 then
      let r ← pickScratch treg
      takeLeaf rec r (leafSize range)
      emit (emitLeaIdx8 treg treg r)
      regFree r
    else
      let l ← pickSaved treg
      emit (emitMovRr l treg)
      let _ ← single rec treg (some treg)
      emit (emitLeaIdx8 treg l treg)
      regFree l
  if wantValue then emit (emitLoad treg treg 0)

/-- Record the destination and the value of an assignment. -/
def noteStore (start mid : Nat) : Gen Unit :=
  Run.modify fun s => { s with stores := s.stores ++ [(start, mid, s.range.length)] }

/-- `case T_EQ` with a destination of constant address. -/
def assignLeaf (treg : X64Reg) (addr : Nat) : Gen Unit := do
  let range := (← Run.get).range
  skipNodes (if (range.head?.bind Node.token?) = some .tThis then 1 else 2)
  let mid := (← Run.get).range.length
  let _ ← single rec treg (some treg)
  if treg = .rax then emit (emitStoreRaxAbs addr)
  else
    let a ← pickScratch treg
    emit (emitMovImm64 a addr)
    emit (emitStore a 0 treg)
    regFree a
  noteStore range.length mid

/-- `case T_EQ` with any other destination. -/
def assignTree (treg : X64Reg) : Gen Unit := do
  let start := (← Run.get).range.length
  let _ ← single rec treg none
  let range := (← Run.get).range
  if leafSize range ≠ 0 then
    let v ← pickScratch treg
    takeLeaf rec v (leafSize range)
    emit (emitStore treg 0 v)
    emit (emitMovRr treg v)
    regFree v
  else
    let a ← pickSaved treg
    emit (emitMovRr a treg)
    let _ ← single rec treg (some treg)
    emit (emitStore a 0 treg)
    regFree a
  noteStore start range.length

/-- `case T_EQ`. -/
def assignCase (treg : X64Reg) : Gen Unit := do
  match ← leafAddress L with
  | some (addr, _) => assignLeaf rec treg addr
  | none => assignTree rec treg

/-- `case T_ADDEQ`. -/
def addAssignCase (treg : X64Reg) : Gen Unit := do
  let start := (← Run.get).range.length
  let _ ← single rec treg none
  let range := (← Run.get).range
  if leafSize range ≠ 0 then
    let v ← pickScratch treg
    takeLeaf rec v (leafSize range)
    emit (emitAddMemReg treg 0 v)
    regFree v
    emit (emitLoad treg treg 0)
  else
    let a ← pickSaved treg
    emit (emitMovRr a treg)
    let _ ← single rec treg (some treg)
    emit (emitAddMemReg a 0 treg)
    emit (emitLoad treg a 0)
    regFree a
  noteStore start range.length

/-! ## Calls -/

/-- The arguments of a call: the nodes of a leaf are kept for later, any other argument is
    evaluated and pushed. -/
def callArgs : Nat → Gen (List (Option (List Node)))
  | 0 => pure []
  | k + 1 => do
    let range := (← Run.get).range
    if leafSize range ≠ 0 then
      skipNodes (leafSize range)
      let rest ← callArgs k
      pure (some (range.take (leafSize range)) :: rest)
    else
      let _ ← single rec .rax (some .rax)
      emitPush .rax
      let rest ← callArgs k
      pure (none :: rest)

/-- The pushed arguments are popped into their registers, the last one first. -/
def popArgs : List (X64Reg × Option (List Node)) → Gen Unit
  | [] => pure ()
  | (r, arg) :: rest => do
    popArgs rest
    if arg.isNone then emitPop r

/-- The leaves are loaded into their registers. -/
def loadArgs : List (X64Reg × Option (List Node)) → Gen Unit
  | [] => pure ()
  | (r, arg) :: rest => do
    match arg with
    | some leaf => genLeaf rec r leaf
    | none => pure ()
    loadArgs rest

/-- The call itself, with the stack aligned to 16 bytes. -/
def emitCall (treg : X64Reg) : Gen Unit := do
  let align := (← Run.get).fn.depth % 2 = 1
  if align then emit (emitRspAdjust (-8))
  emit (emitXor32Rr .rax .rax)
  emit (emitCallReg .r11)
  if align then emit (emitRspAdjust 8)
  emit (emitMovRr treg .rax)

/-- The callee, when it is no leaf, and the argument list. -/
def callCase (treg : X64Reg) : Gen Unit := do
  let callee := (← Run.get).range
  let csz := leafSize callee
  if csz ≠ 0 then skipNodes csz
  else
    let _ ← single rec .rax (some .rax)
    emitPush .rax
  if (← peekToken) ≠ .tComma then genExit 1
  else
    skipNodes 1
    let count ← getNodeValue
    if sysvArgRegs.length < count then genExit 1
    else
      let args ← callArgs rec count
      popArgs (sysvArgRegs.zip args)
      loadArgs rec (sysvArgRegs.zip args)
      if csz ≠ 0 then genLeaf rec .r11 (callee.take csz) else emitPop .r11
      emitCall treg

/-! ## Statements and functions -/

/-- The loop over the trees of a body, `k` of them; a block stands for its statements. -/
def statements : Nat → Nat → Gen Unit
  | _, 0 => pure ()
  | 0, _ + 1 => Run.stop .fuel
  | n + 1, k + 1 => do
    let (i, _) ← rec .rax none
    statements n (k + i)

/-- `case T_IF`. -/
def ifGen (n : Nat) : Gen Unit := do
  let patch ← genJumpIfFalse rec
  statements rec n 1
  patchRel patch (← Run.get).buf.length

/-- `case T_WHILE`. -/
def whileGen (n : Nat) : Gen Unit := do
  let conditionTarget := (← Run.get).buf.length
  let exitPatch ← genJumpIfFalse rec
  statements rec n 1
  let back ← emitJmpRel32
  patchRel back conditionTarget
  patchRel exitPatch (← Run.get).buf.length

/-- `case T_RETURN`. -/
def returnGen : Gen Unit := do
  let (i, _) ← rec .rax (some .rax)
  if i ≠ 0 then genExit i
  else
    let off ← emitJmpRel32
    Run.modify fun s => { s with returns := s.returns ++ [off] }

/-- `CS_SAVE_ORDER`. -/
def csSaveOrder : List X64Reg := [.rbx, .r12, .r13, .r14, .r15]

/-- `FRAME_SIZE`. -/
def frameSize : Nat := 48

/-- `SAVE_SLOT_SIZE`. -/
def saveSlotSize : Nat := 4

/-- `-(int32_t)(8 * (k + 1))` of a register at position `k` of the save order. -/
def saveSlots : List (X64Reg × Int) := csSaveOrder.zip [-8, -16, -24, -32, -40]

/-- `emit_nop4`. -/
def emitNop4 (at_ : Nat) : Gen Unit := patchBytes at_ nop4

/-- `bufmove_dynamic`, of the bytes from `start` to the end. -/
def bufmove (start : Nat) : Gen Unit :=
  Run.modify fun s => { s with buf := s.buf.drop start ++ s.buf.take start }

/-- The parameters of a function are stored into their variables. -/
def storeParams : List X64Reg → Nat → Gen Unit
  | _, 0 => pure ()
  | [], _ + 1 => Run.stop (.fault "read past the argument registers")
  | r :: regs, k + 1 => do
    let _ ← rec .rax none
    emit (emitStore .rax 0 r)
    storeParams regs k

/-- The prologue; the offsets of the frame and of the save slots. -/
def prologue : Gen (Nat × Nat) := do
  emitPush .rbp
  Run.modify fun s => { s with fn := { s.fn with depth := 0 } }
  emit (emitMovRr .rbp .rsp)
  let subAt := (← Run.get).buf.length
  emit (emitAluImm 5 .rsp frameSize)
  let slotsAt := (← Run.get).buf.length
  emit (saveSlots.flatMap fun (r, disp) => emitStore .rbp disp r)
  emit (emitXor32Rr .rax .rax)
  pure (subAt, slotsAt)

/-- The parameter list and the body. -/
def functionTrees (n argCount : Nat) : Gen Unit := do
  if argCount ≠ 0 then
    let (i, _) ← rec .rax none
    if argCount ≠ i then genExit 17
    else storeParams rec sysvArgRegs argCount
  statements rec n 1

/-- The save slots of the registers from position `k` on: those of unused registers become
    NOPs. -/
def patchSlots (slotsAt : Nat) : List X64Reg → Nat → Gen Unit
  | [], _ => pure ()
  | r :: regs, k => do
    if ¬ hasReg (← Run.get).fn.csUsed r then emitNop4 (slotsAt + k * saveSlotSize)
    patchSlots slotsAt regs (k + 1)

/-- A `return` that jumps to the epilogue directly behind it is dropped. -/
def dropLastReturn : Gen Unit :=
  Run.modify fun s =>
    match s.returns.getLast? with
    | none => s
    | some ptr =>
      if ptr + 4 = s.buf.length ∧ 5 ≤ s.buf.length ∧ s.buf[ptr - 1]? = some 0xE9 then
        { s with buf := s.buf.take (s.buf.length - 5), returns := s.returns.dropLast }
      else s

/-- The jumps of the returns, the last one first. -/
def patchReturns : List Nat → Gen Unit
  | [] => pure ()
  | ptr :: rest => do
    patchReturns rest
    patchRel ptr (← Run.get).buf.length

/-- The epilogue. -/
def epilogue : Gen Unit := do
  let used := (← Run.get).fn.csUsed
  emit ((saveSlots.filter fun (r, _) => hasReg used r).flatMap fun (r, disp) => emitLoad r .rbp disp)
  emit emitLeave
  emit emitRet

/-- What `codegen_func` does to the code behind the body. -/
def finishFunction (subAt slotsAt : Nat) : Gen Unit := do
  patchSlots slotsAt csSaveOrder 0
  if ¬ csSaveOrder.any (hasReg (← Run.get).fn.csUsed) then emitNop4 subAt
  dropLastReturn
  patchReturns (← Run.get).returns
  epilogue

/-- The code of a function goes to the front of the buffer. -/
def moveToFront (save : Nat) : Gen Unit := do
  if save = 0 then pure ()
  else
    let n := (← Run.get).buf.length - save
    bufmove save
    Run.modify fun s =>
      { s with reallocs := s.reallocs.dropLast.map (fun (d, ptr) => (d, ptr + n)) ++
          s.reallocs.getLast?.toList }

/-- `codegen_func`, with `codegen_expr` as `rec`. -/
def codegenFunc (n : Nat) (value : Dest) (argCount : Nat) : Gen Unit := do
  let outer ← Run.get
  let save := outer.buf.length
  Run.modify fun s =>
    { s with
      fn := {}
      cup := { s.cup with nodes := { s.cup.nodes with payload := .value save } }
      reallocs := s.reallocs ++ [(value, 0)] }
  let (subAt, slotsAt) ← prologue
  Run.modify fun s => { s with returns := [] }
  functionTrees rec n argCount
  finishFunction subAt slotsAt
  Run.modify fun s => { s with fn := outer.fn, returns := outer.returns }
  moveToFront save

/-- `case T_AT`. -/
def definitionCase (n : Nat) : Gen Unit := do
  let size := (← Run.get).buf.length
  let var ← single rec .rax (some .rax)
  match var with
  | none => genExit 1
  | some v =>
    let s ← Run.get
    let entry ← Run.lift (s.cup.vars.at v)
    match entry.typee.bind (typeAt s.cup.types) with
    | none => genExit 1
    | some type =>
      if type.cuptype ≠ .typeFunction then genExit 1
      else
        Run.modify fun t => { t with cup := { t.cup with scope := t.cup.scope + 1 } }
        if type.size = 0 then
          let (i, _) ← rec .rax none
          if i ≠ 0 then genExit 17
        Run.modify fun t => { t with buf := t.buf.take size }
        codegenFunc rec n (.var v) type.size

end Cases

/-- `codegen_expr`, to the depth `n`. -/
def codegenExpr : Nat → GenExpr
  | 0, _, _ => Run.stop .fuel
  | n + 1, treg, sreg => do
    let wantValue := sreg.isSome
    let before := (← Run.get).range
    match ← getNodeToken with
    | .nBlock =>
      Run.modify fun s => { s with cup := { s.cup with scope := s.cup.scope + 1 } }
      return (← getNodeValue, none)
    | .tComma => return (← getNodeValue, none)
    | .tNumber =>
      emit (emitMovConst treg (← getNodeValue))
      return (0, none)
    | .tString | .tMstring =>
      let i ← getNodeValue
      emit (emitMovImm64 treg (L.dataPtr (← Run.get).cup i))
      return (0, none)
    | .tThis =>
      Run.modify fun s => { s with range := before }
      return (0, ← addressCase L .tThis treg wantValue)
    | .tIdentifier =>
      Run.modify fun s => { s with range := before }
      return (0, ← addressCase L .tIdentifier treg wantValue)
    | .nAddress =>
      Run.modify fun s => { s with range := before }
      return (0, ← addressCase L .nAddress treg wantValue)
    | .nArray =>
      literalCase L (codegenExpr n) treg
      return (0, none)
    | .tOsb =>
      subscriptCase (codegenExpr n) treg wantValue
      return (0, none)
    | .tEq =>
      assignCase L (codegenExpr n) treg
      return (0, none)
    | .tAddeq =>
      addAssignCase (codegenExpr n) treg
      return (0, none)
    | .tAdd =>
      let _ ← genBinary (codegenExpr n) .tAdd treg false
      return (0, none)
    | .tSub =>
      let _ ← genBinary (codegenExpr n) .tSub treg false
      return (0, none)
    | .tMul =>
      let _ ← genBinary (codegenExpr n) .tMul treg false
      return (0, none)
    | .tEqeq =>
      let _ ← genBinary (codegenExpr n) .tEqeq treg false
      return (0, none)
    | .tLess =>
      let _ ← genBinary (codegenExpr n) .tLess treg false
      return (0, none)
    | .tLesseq =>
      let _ ← genBinary (codegenExpr n) .tLesseq treg false
      return (0, none)
    | .tCall =>
      callCase (codegenExpr n) treg
      return (0, none)
    | .tDot => streamExit .dot
    | .tAt =>
      definitionCase (codegenExpr n) n
      return (0, none)
    | .tIf =>
      ifGen (codegenExpr n) n
      return (0, none)
    | .tWhile =>
      whileGen (codegenExpr n) n
      return (0, none)
    | .tReturn =>
      returnGen (codegenExpr n)
      return (0, none)
    | _ => genExit 1

/-! ## Modules -/

/-- The addresses of the functions are written, the last one first. -/
def writeReallocs (page : Nat) : List (Dest × Nat) → CUPState × Nat → CUPState × Nat
  | [], r => r
  | (d, ptr) :: rest, r =>
    let (s, init) := writeReallocs page rest r
    match d with
    | .init => (s, page + ptr)
    | .var v =>
      let items := s.vars.items.modify v fun x => { x with value := page + ptr }
      ({ s with vars := { s.vars with items := items } }, init)

/-- `codegen`, of a module at the address `page`; the depth covers every tree of the stream. -/
def codegen (page : Nat) (nodes : List Node) : Gen Nat := do
  Run.modify fun s => { s with range := nodes, reallocs := [] }
  codegenFunc (codegenExpr L (nodes.length + 1)) (nodes.length + 1) .init 0
  let s ← Run.get
  let (cup, init) := writeReallocs page s.reallocs (s.cup, 0)
  Run.set { s with cup := cup }
  pure init

end Cup
