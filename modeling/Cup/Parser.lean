/-
  The parser (`src/parser.c`): `primary` reads an operand and then operators as long as their
  power is at least its own; it returns the nodes of the tree in prefix order.

  `primary` and `statement` call each other; the model counts the depth, and gives the loops
  the same count. Each case gets the token it starts with as an argument. Where an operand is
  spliced into its parent, `noteMissing` records that the operand has no nodes at all.
-/
import Cup.Symbols

namespace Cup

open Lib (Stop Run)

/-- `Nodes`: a vector of nodes of 8 bytes. -/
abbrev Nodes := CVec Node

/-- `CUPDEFPOWER`. -/
def cupDefPower : Nat := 2

/-- `getPower`. -/
def getPower : CTType → Nat
  | .tEof => 0
  | .tIf | .tReturn | .tNl | .tCrb | .tCcb | .tCsb | .tOcb => 1
  | .tComma | .tOsb => 2
  | .tEq | .tAddeq | .tSubeq | .tMuleq | .tDiveq | .tModeq | .tAndeq | .tOreq | .tXoreq => 3
  | .tOr | .tAnd | .tXor => 6
  | .tEqeq | .tNoteq => 8
  | .tLesseq | .tGreateq | .tLess | .tGreat => 10
  | .tAdd | .tSub => 12
  | .tMul | .tDiv | .tMod => 14
  | .tDot => 16
  | .tCall => 18
  | _ => 255

/-! ## Node vectors -/

/-- `vector_pushT(v.vec, n)` of one node. -/
def pushLoc (v : Nodes) (loc : Loc) : Comp Nodes := Run.lift (vectorPush 8 v [.tok loc])

/-- `vector_pushT(v.vec, n)` of a `Node2`. -/
def pushNode2 (v : Nodes) (n : Node2) : Comp Nodes := Run.lift (vectorPush 8 v n.nodes)

/-- `vector_fpushT(v.vec, n)` of one node. -/
def fpushNode (v : Nodes) (n : Node) : Comp Nodes := Run.lift (vectorFpush 8 v [n])

/-- Record an operand without nodes. -/
def noteMissing (v : Nodes) : Comp Unit :=
  if v.buf = .null then note .missing else pure ()

/-- `push_vector` of an operand. -/
def splice (dest src : Nodes) : Comp Nodes := do
  noteMissing src
  Run.lift (pushVector 8 dest src)

/-- `v.data->token`. -/
def headToken (v : Nodes) : Comp CTType := do
  match ← Run.lift (v.at 0) with
  | .tok loc => pure loc.token
  | _ => Run.stop (.fault "a payload read as a token")

/-- `v.data[1].value`. -/
def payloadValue (v : Nodes) : Comp Nat := do
  match ← Run.lift (v.at 1) with
  | .value n => pure n
  | _ => Run.stop (.fault "a payload read as a count")

/-- `v.data[1].value = n`. -/
def setPayload (v : Nodes) (n : Nat) : Nodes := { v with items := v.items.set 1 (.value n) }

/-- `expectAndNext`. -/
def expectAndNext (t : CTType) : Comp Unit := do
  if (← Run.get).token ≠ t then exit 1 else getToken true

/-- `frac`, as an exact quotient. -/
def frac (fracPart : Nat) : Rat :=
  if fracPart = 0 then 0 else (fracPart : Rat) / (10 ^ (Nat.toDigits 10 fracPart).length : Nat)

/-! ## Modules and libraries -/

/-- Whether `cup_compile_file` gives a module: the name is not NULL and not empty, and the file
    opens. -/
def cupCompileFile (host : Host) : Option Bytes → Bool
  | none => false
  | some filename => filename ≠ [] && host.fopen filename

/-- `importModule`. A file that opens is compiled and run, and then the process ends; without a
    module the parser goes on. -/
def importModule (host : Host) : Comp Unit := do
  let s ← Run.get
  let name := (getData s s.nodes.payload.val).map fun off => (s.data.drop off).takeWhile (· ≠ 0)
  if cupCompileFile host name then exit 1 else pure ()

/-- The file names that `externalModule` tries. -/
def libraryNames (name : Bytes) : List Bytes :=
  let so := ascii ['.', 's', 'o']
  if name.drop (name.length - 3) = so then List.replicate 5 name
  else [[], ascii ['.', '6'], ascii ['.', '0'], ascii ['.', '1'], ascii ['.', '2']].map
    fun suffix => name ++ so ++ suffix

/-- `externalModule`. -/
def externalModule (host : Host) : Comp Unit := do
  let s ← Run.get
  match getData s s.nodes.payload.val with
  | none =>
    noteGap .literal
    Run.stop (.fault "NULL dereference")
  | some off =>
    let name := (s.data.drop off).takeWhile (· ≠ 0)
    if name.length < 3 then
      noteGap .suffix
      Run.stop (.fault "read in front of the block")
    else match (libraryNames name).find? fun base => host.dlopen base ≠ 0 with
      | none => exit 1
      | some base => Run.set { s with externals := s.externals ++ [host.dlopen base] }

/-- The `while` loop of `T_EXTERNAL`. -/
def externalLoop (host : Host) : Nat → Comp Unit
  | 0 => Run.stop .fuel
  | n + 1 => do
    let s ← Run.get
    match s.token, s.nodes.payload with
    | .tIdentifier, .svalue name =>
      getToken true
      let s ← Run.get
      if s.token ≠ .tString then pure ()
      else
        externalSymbol host name s.nodes.payload.val
        getToken true
        externalLoop host n
    | _, _ => pure ()

/-! ## Operands -/

/-- `statement`, with `primary` as `rec`. -/
def statementWith (rec : Nat → Comp Nodes) : Comp Nodes := do
  let n ← rec cupDefPower
  if (← Run.get).token = .tNl then getToken false
  pure n

/-- `case T_IMPORT`. -/
def importCase (host : Host) : Comp Nodes := do
  getToken true
  if (← Run.get).token ≠ .tString then pure {}
  else
    importModule host
    getToken true
    pure {}

/-- `case T_EXTERNAL`. -/
def externalCase (host : Host) (n : Nat) : Comp Nodes := do
  getToken true
  if (← Run.get).token ≠ .tString then pure {}
  else
    externalModule host
    getToken true
    externalLoop host n
    pure {}

/-- The entry of a function name: an entry with a type is a redefinition. -/
def declareFunction (name : CStr) : Comp Unit := do
  let s ← Run.get
  match ← Run.lift (varLookup s name.bytes s.scope) with
  | none => declare name
  | some v =>
    let var ← Run.lift (s.vars.at v)
    if var.typee ≠ none ∧ var.typee ≠ some (.base .typeVoid) then exit 1 else declare name

/-- `cup_talloc` of `argc + 2` pointers, with `types[argc + 1] = &cup_type_void`. -/
def functionSlots (argc : Nat) : Comp (List Slot) := do
  if 2048 ≤ 8 * (argc + 2) then exit 1
  else
    Run.modify fun s =>
      let mem := s.tempmem ++ List.replicate (256 - s.tempmem.length) .null
      { s with tempmem := mem.set (argc + 1) (.type (.base .typeVoid)) }
    Run.gets (·.tempmem)

/-- `cup_type` of a function with `argc` parameters of unknown types. -/
def functionType (host : Host) (argc : Nat) : Comp TRef := do
  let slots ← functionSlots argc
  cupType host.mem .typeFunction (argc + 1) (.slots slots)

/-- `vvv->typee = type` for the entry that `varLookup` finds. -/
def setVarType (name : CStr) (type : TRef) : Comp Unit := do
  let s ← Run.get
  match ← Run.lift (varLookup s name.bytes s.scope) with
  | none => Run.stop (.assertion "vvv")
  | some v =>
    let var ← Run.lift (s.vars.at v)
    Run.set { s with vars := { s.vars with items := s.vars.items.set v { var with typee := some type } } }

/-- Whether `v.data` is a list of nodes that starts with `T_COMMA`. -/
def isList (v : Nodes) : Comp Bool := do
  if v.buf = .null then pure false
  else pure (decide ((← headToken v) = .tComma))

/-- The list header of the parameters and their number: a single parameter gets a header. -/
def functionHeader (left args : Nodes) (comma : Node2) : Comp (Nodes × Nat) := do
  if ← isList args then
    let argc ← payloadValue args
    pure (left, argc)
  else
    let left ← pushNode2 left { comma.setToken .tComma with payload := .value 1 }
    pure (left, 1)

/-- `case T_AT` behind the name: the parameters and the body. -/
def functionBody (host : Host) (rec : Nat → Comp Nodes) (left : Nodes) (name : CStr) :
    Comp Nodes := do
  declareFunction name
  getToken true
  let _ ← scopeEnter
  let comma := (← Run.get).nodes
  let args ← statementWith rec
  let (left, argc) ← functionHeader left args comma
  let type ← functionType host argc
  setVarType name type
  let left ← splice left args
  let block ← statementWith rec
  let left ← splice left block
  scopeLeave
  pure left

/-- `case T_AT`: a function definition. -/
def functionCase (host : Host) (rec : Nat → Comp Nodes) (n : Node2) : Comp Nodes := do
  getToken true
  let name := (← Run.get).nodes
  if name.token = .tAt then
    getToken true
    pure {}
  else if name.token = .tIdentifier then
    let left ← pushLoc {} n.loc
    let left ← pushNode2 left name
    match name.payload with
    | .svalue str => functionBody host rec left str
    | _ => Run.stop (.fault "a payload read as a string")
  else pure {}

/-- `case T_WHILE`. -/
def whileCase (rec : Nat → Comp Nodes) (n : Node2) : Comp Nodes := do
  let left ← pushLoc {} n.loc
  getToken false
  let cond ← statementWith rec
  let left ← splice left cond
  let body ← statementWith rec
  splice left body

/-- `case T_RETURN`. -/
def returnCase (rec : Nat → Comp Nodes) (n : Node2) : Comp Nodes := do
  let left ← pushLoc {} n.loc
  getToken false
  let value ← statementWith rec
  splice left value

/-- `case T_SUB`, with `N_UNARY` in place of the token, and `case T_NOT`. -/
def unaryCase (rec : Nat → Comp Nodes) (n : Node2) : Comp Nodes := do
  Run.modify fun s => { s with nodes := n }
  let left ← pushLoc {} n.loc
  getToken true
  let value ← rec cupDefPower
  splice left value

/-- `case T_IDENTIFIER`. -/
def identifierCase (n : Node2) : Comp Nodes := do
  let left ← pushNode2 {} n
  match n.payload with
  | .svalue name =>
    if (← Run.get).scope ≠ 0 then
      declare name
      getToken true
    else getToken true
    pure left
  | _ => Run.stop (.fault "a payload read as a string")

/-- `case T_NUMBER`: digits, or digits, a dot and digits. -/
def numberCase (n : Node2) : Comp Nodes := do
  getToken true
  if (← Run.get).token = .tDot then
    let d : Rat := n.payload.val
    getToken true
    let s ← Run.get
    if s.token = .tNumber then
      getToken true
      pushNode2 {} { n.setToken .tDouble with payload := .dvalue (d + frac s.nodes.payload.val) }
    else pushNode2 {} { n.setToken .tDouble with payload := .dvalue d }
  else pushNode2 {} n

/-- The leaves of one node: `T_THIS`, `T_VARG`, `T_BREAK`, `T_CONTINUE`. -/
def leafCase (n : Node2) : Comp Nodes := do
  let left ← pushLoc {} n.loc
  getToken true
  pure left

/-- `case T_STRING`. -/
def stringCase (n : Node2) : Comp Nodes := do
  let left ← pushNode2 {} n
  getToken true
  pure left

/-- `case T_CALL` in front of an operand: brackets, or the empty list. -/
def bracketCase (rec : Nat → Comp Nodes) : Comp Nodes := do
  getToken false
  let n := (← Run.get).nodes
  if n.token ≠ .tCrb then
    let left ← statementWith rec
    expectAndNext .tCrb
    pure left
  else
    let left ← pushNode2 {} (n.setToken .tComma)
    getToken true
    pure left

/-- A statement of a block: `data[1]` counts those with nodes. -/
def pushStatement (left block : Nodes) : Comp Nodes := do
  if block.buf ≠ .null then
    let count ← payloadValue left
    Run.lift (pushVector 8 (setPayload left (count + 1)) block)
  else Run.lift (pushVector 8 left block)

/-- The statements of a block, up to its `}`. -/
def blockLoop (rec : Nat → Comp Nodes) : Nat → Nodes → Comp Nodes
  | 0, _ => Run.stop .fuel
  | n + 1, left => do
    if (← Run.get).token = .tCcb then pure left
    else
      let block ← statementWith rec
      let left ← pushStatement left block
      blockLoop rec n left

/-- `case T_OCB`: a block. -/
def blockCase (k : Nat) (rec : Nat → Comp Nodes) (n : Node2) : Comp Nodes := do
  Run.modify fun s => { s with nodes := n }
  let left ← pushNode2 {} n
  getToken false
  let _ ← scopeEnter
  let left ← blockLoop rec k left
  getToken true
  scopeLeave
  pure left

/-- The elements of an array literal behind its node `n`; the number of slots goes to
    `data[1]`. -/
def arrayElements (rec : Nat → Comp Nodes) (left : Nodes) (n : Node2) : Comp Nodes := do
  let emptyList : Node2 := { n.setToken .tComma with payload := .value 0 }
  if (← Run.get).token ≠ .tCsb then
    let body ← rec cupDefPower
    if body.buf = .null then pushNode2 left emptyList
    else if ← isList body then
      let len ← payloadValue body
      Run.lift (pushVector 8 (setPayload left len) body)
    else
      -- one element: no list header
      note .bare
      Run.lift (pushVector 8 (setPayload left 1) body)
  else pushNode2 left emptyList

/-- `case T_OSB` in front of an operand: an array literal and its storage. -/
def arrayCase (rec : Nat → Comp Nodes) (n : Node2) : Comp Nodes := do
  Run.modify fun s => { s with nodes := n }
  let left ← pushNode2 {} n
  getToken false
  let left ← arrayElements rec left n
  let len ← payloadValue left
  let off := (← Run.get).data.length
  Run.modify fun s => { s with data := reserveArray s.data len }
  note (.reserve off len)
  expectAndNext .tCsb
  pure (setPayload left off)

/-- `case T_IF`. -/
def ifCase (rec : Nat → Comp Nodes) (n : Node2) : Comp Nodes := do
  let left ← pushLoc {} n.loc
  getToken false
  let cond ← statementWith rec
  let left ← splice left cond
  let body ← statementWith rec
  let left ← splice left body
  let e := (← Run.get).nodes
  if e.token = .tElse then
    let left ← fpushNode left (.tok e.loc)
    getToken false
    let other ← statementWith rec
    splice left other
  else pure left

/-- The `switch` of `primary` on the current token `n`: the operand, and whether `primary`
    returns it at once. -/
def operand (host : Host) (k : Nat) (rec : Nat → Comp Nodes) (n : Node2) :
    Comp (Nodes × Bool) := do
  match n.token with
  | .tImport => return (← importCase host, true)
  | .tExternal => return (← externalCase host k, true)
  | .tAt => return (← functionCase host rec n, true)
  | .tBreak | .tContinue | .tThis | .tVarg => return (← leafCase n, false)
  | .tWhile => return (← whileCase rec n, true)
  | .tReturn => return (← returnCase rec n, false)
  | .tSub => return (← unaryCase rec (n.setToken .nUnary), false)
  | .tNot => return (← unaryCase rec n, false)
  | .tIdentifier => return (← identifierCase n, false)
  | .tString => return (← stringCase n, false)
  | .tNumber => return (← numberCase n, false)
  | .tCall => return (← bracketCase rec, false)
  | .tOcb => return (← blockCase k rec (n.setToken .nBlock), true)
  | .tOsb => return (← arrayCase rec (n.setToken .nArray), false)
  | .tIf => return (← ifCase rec n, false)
  | .tAnd => Run.stop (.assertion "0")
  | _ => exit 1

/-! ## Operators -/

/-- The right operand, behind the operator `op`; the current token is the first one behind it. -/
def rightOperand (rec : Nat → Comp Nodes) (op : Node2) : Comp Nodes := do
  let s ← Run.get
  if (op.token = .tCall ∧ s.token = .tCrb) ∨ (op.token = .tOsb ∧ s.token = .tCsb) then
    pushNode2 {} { op.setToken .tComma with payload := .value 0 }
  else
    let power := if op.token = .tCall ∨ op.token = .tOsb then cupDefPower else getPower op.token
    if power = 16 then
      -- a member name is looked up in no scope
      Run.modify fun t => { t with scope := 0 }
      let right ← rec 16
      Run.modify fun t => { t with scope := s.scope }
      pure right
    else rec power

/-- `right.data->token`, with no check that there are nodes. -/
def operandToken (right : Nodes) : Comp CTType := do
  if right.buf = .null then noteGap .operand
  headToken right

/-- `case T_CALL`: a single argument gets a list header. -/
def callOp (op : Node2) (left right : Nodes) : Comp Nodes := do
  if (← Run.get).token ≠ .tCrb then exit 1
  else
    getToken true
    let left ← fpushNode left (.tok op.loc)
    if (← operandToken right) ≠ .tComma then
      let left ← pushNode2 left { op.setToken .tComma with payload := .value 1 }
      Run.lift (pushVector 8 left right)
    else Run.lift (pushVector 8 left right)

/-- `case T_EQ`: the right operand goes in front of the left one. -/
def eqOp (op : Node2) (left right : Nodes) : Comp Nodes := do
  let right ← fpushNode right (.tok op.loc)
  Run.lift (fpushVector 8 left right)

/-- `case T_COMMA`: the right operand is extended when it is a list. -/
def commaOp (op : Node2) (left right : Nodes) : Comp Nodes := do
  if (← operandToken right) = .tComma then
    let n ← payloadValue right
    let left ← fpushNode left (.value (n + 1))
    let left ← fpushNode left (.tok op.loc)
    let right ← Run.lift (vectorFpop right 2)
    if right.items = [] then
      note .emptyTail
      Run.lift (pushVector 8 left right)
    else Run.lift (pushVector 8 left right)
  else
    let left ← fpushNode left (.value 2)
    let left ← fpushNode left (.tok op.loc)
    Run.lift (pushVector 8 left right)

/-- `T_DOT` and the binary operators. -/
def binaryOp (op : Node2) (left right : Nodes) : Comp Nodes := do
  let left ← fpushNode left (.tok op.loc)
  Run.lift (pushVector 8 left right)

/-- `case T_OSB`: an index. -/
def indexOp (op : Node2) (left right : Nodes) : Comp Nodes := do
  if (← Run.get).token ≠ .tCsb then exit 1
  else
    getToken true
    binaryOp op left right

/-- The second `switch` of `primary`. -/
def combine (op : Node2) (left right : Nodes) : Comp Nodes :=
  match op.token with
  | .tCall => callOp op left right
  | .tEq => eqOp op left right
  | .tComma => commaOp op left right
  | .tOsb => indexOp op left right
  | .tDot | .tAdd | .tAddeq | .tEqeq | .tLess | .tMul | .tLesseq | .tSub => binaryOp op left right
  | _ => exit 1

/-- The operator loop of `primary`. -/
def operatorLoop (rec : Nat → Comp Nodes) (mpower : Nat) : Nat → Nodes → Comp Nodes
  | 0, _ => Run.stop .fuel
  | n + 1, left => do
    let op := (← Run.get).nodes
    let power := getPower op.token
    if power = 255 then exit 1
    else if power < mpower then pure left
    else
      noteMissing left
      getToken false
      let right ← rightOperand rec op
      noteMissing right
      let left ← combine op left right
      operatorLoop rec mpower n left

/-- `primary`, to the depth `n`. -/
def primaryFuel (host : Host) : Nat → Nat → Comp Nodes
  | 0, _ => Run.stop .fuel
  | n + 1, mpower => do
    let (left, done) ← operand host n (primaryFuel host n) (← Run.get).nodes
    if done then pure left else operatorLoop (primaryFuel host n) mpower n left

/-- `primary`: a call for each character that is left, and one more, is deep enough. -/
def primary (host : Host) (mpower : Nat) : Comp Nodes := do
  primaryFuel host ((← Run.get).input.length + 2) mpower

/-- `statement`. -/
def statement (host : Host) : Comp Nodes := statementWith (primary host)

end Cup
