/-
  The resolver (`src/resolver.c`): `inferTypes` walks the node stream, rewrites it into a new
  one and infers the type of each tree, and `resolve` runs it over a module.

  A vector of nodes is the list of its nodes here: every block that is pushed has a node. The
  callbacks of the meta types belong to the host; a callback may change the compiler state. A
  callee that `cup_gen_call` produced has the tag of a variable in the source; using it as one
  would read a type as a variable.
-/
import Cup.Codegen
import Cup.Symbols

namespace Cup

open Lib (Stop Run)

/-- `CUPValue`. `pvalue` is an address, 0 for NULL; `function` is `CV_FUNCTION`. -/
inductive CUPValue where
  | error
  | any (type : Option TRef)
  | value (type : Option TRef) (value : Nat)
  | address (type : Option TRef) (pvalue : Nat)
  | variable (var : Option Nat) (name : Bytes)
  | function (type : TRef) (value : Nat)
  | list (types : List (Option TRef)) (values : List Nat)
  deriving DecidableEq, Repr

/-- `CUP_META_OP` with its part of `CUP_META`. -/
inductive MetaOp where
  | member (name : Bytes)
  | brack (indextype : Option TRef) (indexvalue : Nat)
  | call (argtypes : List (Option TRef)) (argvalues : List Nat)
  deriving DecidableEq, Repr

/-- `CUP_GEN_RESULT`. -/
inductive GenResult where
  | error
  | done
  | continue
  deriving DecidableEq, Repr

/-- The environment of the resolver: the memory that new types get, the addresses of the blocks
    of the compiler, the callbacks of meta types with the value they leave in `ctx->value`, and
    the `size_t` at an address. -/
structure ResHost where
  mem : Nat → Nat → Slot
  layout : Layout
  metaGen : Nat → MetaOp → Nat → Comp (GenResult × CUPValue)
  deref : CUPState → Nat → Nat

/-- A host without callbacks. -/
def bareResHost : ResHost where
  mem _ _ := .null
  layout := ⟨4096, 8192⟩
  metaGen _ _ _ := pure (.error, .error)
  deref _ _ := 0

/-- The type of a value as far as it is known in `s`. -/
def CUPValue.typeIn (s : CUPState) : CUPValue → Option TRef
  | .any type => type
  | .value type _ => type
  | .address type _ => type
  | .variable (some v) _ => s.vars.items[v]?.bind (·.typee)
  | _ => none

/-- An array literal with slots of 8 bytes for its elements, or a string literal with its bytes. -/
inductive LiteralKind where
  | array
  | string
  deriving DecidableEq, Repr

/-- A literal: its type, where its storage starts in the data, and how many elements or bytes
    (with the NUL) it has. -/
structure Literal where
  kind : LiteralKind
  type : TRef
  off : Nat
  count : Nat
  deriving DecidableEq, Repr

/-- Ghost events of the resolver: the sides of an assignment and the type of the right one when
    they are compared; a literal and its address; an accepted index with its base, the address
    of the data of the base and the address that was computed, 0 when they are not known; a
    result that nothing reads. -/
inductive ResEvent where
  | assigned (left right : CUPValue) (type : Option TRef)
  | literal (l : Literal) (address : Nat)
  | indexed (left : CUPValue) (base index address : Nat)
  | dropped (value : CUPValue)
  deriving DecidableEq, Repr

/-- The state of the resolver: the vector that is written and the nodes that are left. `sides`
    and `log` are ghost fields: for each `T_EQ` `sides` has the sizes of the vector in front of
    the right side, between the sides, and behind the left side. -/
structure ResState where
  cup : CUPState
  new : List Node := []
  range : List Node := []
  sides : List (Nat × Nat × Nat) := []
  log : List ResEvent := []
  deriving DecidableEq, Repr

/-- Code of the resolver. -/
abbrev Inf := Run ResState

/-- Code of the compiler inside the resolver. -/
def liftComp {α : Type} (x : Comp α) : Inf α := fun s =>
  match x s.cup with
  | .ok a cup => .ok a { s with cup := cup }
  | .stop e cup => .stop e { s with cup := cup }

/-- `vector_push` to `new`. -/
def pushNew (nodes : List Node) : Inf Unit := Run.modify fun s => { s with new := s.new ++ nodes }

/-- Record a ghost event. -/
def logEvent (e : ResEvent) : Inf Unit := Run.modify fun s => { s with log := s.log ++ [e] }

/-- `getNode`. -/
def nextNode : Inf Node := do
  let s ← Run.get
  match s.range with
  | [] => Run.stop (.exit 1)
  | n :: rest =>
    Run.set { s with range := rest }
    pure n

/-- `getNode(range)->value`. -/
def nextValue : Inf Nat := do
  match ← nextNode with
  | .value v => pure v
  | _ => Run.stop (.fault "a payload read as a number")

/-- `getNode(range)->svalue`. -/
def nextString : Inf CStr := do
  match ← nextNode with
  | .svalue str => pure str
  | _ => Run.stop (.fault "a payload read as a string")

variable (H : ResHost)

/-- `inferTypes`: whether `rtype` is given, and whether `fn` is `fnarray`. -/
abbrev Infer := Bool → Bool → Inf CUPValue

/-! ## Assignments -/

/-- `target->typee`. -/
def varType (v : Nat) : Inf (Option TRef) := do
  let var ← Run.lift ((← Run.get).cup.vars.at v)
  pure var.typee

/-- `target->typee = type`. -/
def setType (v : Nat) (type : TRef) : Inf Unit :=
  Run.modify fun s =>
    let items := s.cup.vars.items.modify v fun x => { x with typee := some type }
    { s with cup := { s.cup with vars := { s.cup.vars with items := items } } }

/-- The checks of `eq` for a right side of the type `type`. -/
def assignType (type : Option TRef) (left right : CUPValue) : Inf CUPValue :=
  match left with
  | .variable (some target) _ => do
    let old ← varType target
    if type.isSome ∧ old.isSome ∧ old ≠ type then pure .error
    else
      match type with
      | some t => setType target t
      | none => pure ()
      pure right
  | .address old _ =>
    if type.isSome ∧ old ≠ type then pure .error else pure right
  | .function _ _ => Run.stop (.fault "a type read as a variable")
  | _ => Run.stop (.assertion "0")

/-- The `switch` of `eq`. -/
def eqChecks (left right : CUPValue) : Inf CUPValue :=
  match right with
  | .any type => assignType type left right
  | .value type _ => assignType type left right
  | .address type _ => assignType type left right
  | .variable none _ => Run.stop (.assertion "0")
  | .variable (some v) _ => do assignType (← varType v) left right
  | .function _ _ => Run.stop (.fault "a type read as a variable")
  | .list _ _ => pure .error
  | .error => Run.stop (.assertion "0")

/-- `eq`: the right side comes first. -/
def eqInfer (rec : Infer) : Inf CUPValue := do
  let start := (← Run.get).new.length
  let right ← rec false false
  let mid := (← Run.get).new.length
  let left ← rec false false
  Run.modify fun s =>
    { s with
      sides := s.sides ++ [(start, mid, s.new.length)]
      log := s.log ++ [.assigned left right (right.typeIn s.cup)] }
  eqChecks left right

/-! ## Meta types -/

/-- `pushNode2`. -/
def pushPair (loc : Loc) (token : CTType) (value : Nat) : Inf Unit :=
  pushNew [.tok { loc with token := token }, .value value]

/-- `pushNumber`. -/
def pushNumber (loc : Loc) (value : Nat) : Inf Unit := pushPair loc .tNumber value

/-- `pushAddress`. -/
def pushAddress (loc : Loc) (address : Nat) : Inf Unit := pushPair loc .nAddress address

/-- The entry, the callback and the value of a variable with a meta type. -/
def metaOf (v : Nat) : Inf (Option (Nat × Nat)) := do
  let s ← Run.get
  let var ← Run.lift (s.cup.vars.at v)
  match var.typee.bind (typeAt s.cup.types) with
  | some ⟨.typeMeta, _, _, .gen f⟩ => pure (some (f, var.value))
  | _ => pure none

/-- `metaApply`. -/
def metaApply (f value : Nat) (op : MetaOp) : Inf CUPValue := do
  let (r, v) ← liftComp (H.metaGen f op value)
  match r with
  | .error => pure .error
  | .continue => pure .error
  | .done => pure v

/-- `inferTypes` into another vector: what it wrote, and its value. -/
def inferInto (rec : Infer) : Inf (List Node × CUPValue) := do
  let new := (← Run.get).new
  Run.modify fun s => { s with new := [] }
  let v ← rec false false
  let written := (← Run.get).new
  Run.modify fun s => { s with new := new }
  pure (written, v)

/-- `dot`. -/
def dotInfer (rec : Infer) (loc : Loc) : Inf CUPValue := do
  let (_, left) ← inferInto rec
  match ← nextNode with
  | .tok name =>
    if name.token ≠ .tIdentifier then pure .error
    else
      let str ← nextString
      match left with
      | .variable (some v) _ =>
        match ← metaOf v with
        | none => pure .error
        | some (f, value) =>
          let r ← metaApply H f value (.member str.bytes)
          match r with
          | .value _ n =>
            pushNumber loc n
            pure r
          | .address _ p =>
            pushAddress loc p
            pure r
          | _ => pure .error
      | .function _ _ => Run.stop (.fault "a type read as a variable")
      | _ => pure .error
  | _ => Run.stop (.fault "a payload read as a token")

/-- The result of a callback for a call. -/
def callResult (loc : Loc) (args : List Node) (r : CUPValue) : Inf CUPValue :=
  match r with
  | .function _ value => do
    pushNew [.tok loc]
    pushNumber loc value
    pushNew args
    pure r
  | .variable _ _ => Run.stop (.fault "a variable read as a callee")
  | .value _ n => do
    pushNumber loc n
    pure r
  | _ => Run.stop (.assertion "0")

/-- `call`. -/
def callInfer (rec : Infer) (loc : Loc) : Inf CUPValue := do
  let (_, left) ← inferInto rec
  let (args, right) ← inferInto rec
  match left with
  | .list _ _ => pure .error
  | .value _ _ => pure .error
  | .variable none _ => Run.stop (.fault "NULL dereference")
  | .variable (some v) _ =>
    match ← varType v with
    | none => Run.stop (.assertion "var->typee")
    | some t =>
      match right with
      | .list types values =>
        match typeAt (← Run.get).cup.types t with
        | some ⟨.typeFunction, _, _, _⟩ => Run.stop (.assertion "0")
        | some ⟨.typeMeta, _, _, .gen f⟩ =>
          let var ← Run.lift ((← Run.get).cup.vars.at v)
          let (r, value) ← liftComp (H.metaGen f (.call types values) var.value)
          match r with
          | .error => pure .error
          | .continue => Run.stop (.assertion "0")
          | .done => callResult loc args value
        | _ => pure .error
      | _ => pure .error
  | .function _ _ => Run.stop (.fault "a type read as a variable")
  | _ => Run.stop (.assertion "0")

/-- The index of an array of the type `type` whose data is at `base`, 0 when it is not known. -/
def arrayIndex (type : Option TRef) (base : Nat) (right : CUPValue) : Inf CUPValue := do
  match type.bind (typeAt (← Run.get).cup.types) with
  | some ⟨.typeArray, _, size, .element element⟩ =>
    match right with
    | .value itype i =>
      if itype ≠ some (.base .typeInt) then pure .error
      else if element = .base .typeVoid then pure .error
      else if size ≤ i then pure .error
      else pure (.address (some element) (if base ≠ 0 then (base + 8 * i) % 2 ^ 64 else 0))
    | _ => pure .error
  | _ => pure .error

/-- `arrayIndex` for the value `left`. -/
def indexInfer (left : CUPValue) (type : Option TRef) (base : Nat) (right : CUPValue) :
    Inf CUPValue := do
  let r ← arrayIndex type base right
  match right, r with
  | .value _ i, .address _ p => logEvent (.indexed left base i p)
  | _, _ => pure ()
  pure r

/-- `osb`, behind the `T_OSB` node `loc` at the position `mark`. -/
def osbInfer (rec : Infer) (loc : Loc) (mark : Nat) : Inf CUPValue := do
  let left ← rec false false
  let right ← rec false false
  match left with
  | .value _ _ => pure .error
  | .variable (some v) _ =>
    match ← metaOf v with
    | some (f, value) =>
      logEvent (.dropped right)
      let op := match right with
        | .value type n => MetaOp.brack type n
        | _ => .brack none 0
      let r ← metaApply H f value op
      match r with
      | .address _ p =>
        Run.modify fun s => { s with new := s.new.take mark }
        pushAddress loc p
        pure r
      | .value _ n =>
        Run.modify fun s => { s with new := s.new.take mark }
        pushNumber loc n
        pure r
      | _ => pure .error
    | none =>
      let var ← Run.lift ((← Run.get).cup.vars.at v)
      indexInfer left var.typee var.value right
  | .address type pvalue =>
    if pvalue = 0 then pure .error
    else indexInfer left type (H.deref (← Run.get).cup pvalue) right
  | .function _ _ => Run.stop (.fault "a type read as a variable")
  | _ => pure .error

/-! ## Lists -/

/-- An element of a block, list or array: its entries of `types` and `values`. -/
def itemOf (item : CUPValue) : Inf (Option TRef × Nat) :=
  match item with
  | .value none _ => Run.stop (.assertion "0")
  | .value (some t) v => pure (if t = .base .typeVoid then (none, 0) else (some t, v))
  | .variable none _ => Run.stop (.fault "NULL dereference")
  | .variable (some v) _ => do
    let var ← Run.lift ((← Run.get).cup.vars.at v)
    pure (var.typee, var.value)
  | .address none _ => Run.stop (.assertion "0")
  | .address (some t) p => do
    let s ← Run.get
    pure (some t, if p ≠ 0 then H.deref s.cup p else 0)
  | .function _ _ => Run.stop (.fault "a type read as a variable")
  | _ => Run.stop (.assertion "0")

/-- The loop of `defFor`; `none` when an element is an error. -/
def defForLoop (rec : Infer) (rtype : Bool) : Nat → Inf (Option (List (Option TRef × Nat)))
  | 0 => pure (some [])
  | k + 1 => do
    let item ← rec rtype false
    if item = .error then pure none
    else
      let entry ← itemOf H item
      match ← defForLoop rec rtype k with
      | none => pure none
      | some rest => pure (some (entry :: rest))

/-- `fncomma`. -/
def fnComma (items : List (Option TRef × Nat)) : CUPValue :=
  .list (items.map (·.1)) (items.map (·.2))

/-- `fnarray`: the known types have to be the same. -/
def fnArray (items : List (Option TRef × Nat)) : CUPValue :=
  let known := items.filterMap (·.1)
  if known.all fun t => some t = known.head? then fnComma items else .error

/-- `defFor`. -/
def defFor (rec : Infer) (rtype : Bool) (count : Nat)
    (fn : List (Option TRef × Nat) → CUPValue) : Inf CUPValue := do
  match ← defForLoop H rec rtype count with
  | none => pure .error
  | some items => pure (fn items)

/-! ## Trees -/

/-- `UINT16_MAX`. -/
def uint16Max : Nat := 2 ^ 16 - 1

/-- `case N_ARRAY`. -/
def arrayInfer (rec : Infer) (loc : Loc) : Inf CUPValue := do
  let i ← nextValue
  let off := H.layout.dataPtr (← Run.get).cup i
  pushNew [.tok loc, .value i]
  match ← rec false true with
  | .list types _ =>
    if uint16Max ≤ types.length then Run.stop (.assertion "count < UINT16_MAX")
    else
      let data := match types.head?.join with
        | none => TData.null
        | some t => .type t
      let t ← liftComp (cupType H.mem .typeArray types.length data)
      logEvent (.literal ⟨.array, t, i, types.length⟩ off)
      pure (.value (some t) off)
  | _ => Run.stop (.assertion "0")

/-- `case T_STRING`, with `strlen`. -/
def stringInfer (loc : Loc) : Inf CUPValue := do
  let i ← nextValue
  let s ← Run.get
  pushNew [.tok loc, .value i]
  match getData s.cup i with
  | none => Run.stop (.fault "NULL dereference")
  | some off =>
    let bytes := (s.cup.data.drop off).takeWhile (· ≠ 0)
    if s.cup.data.length ≤ off + bytes.length then Run.stop (.fault "read behind the data")
    else if uint16Max ≤ bytes.length + 1 then Run.stop (.assertion "count < UINT16_MAX")
    else
      let t ← liftComp (cupType H.mem .typeArray (bytes.length + 1) (.type (.base .typeUint8)))
      logEvent (.literal ⟨.string, t, off, bytes.length + 1⟩ (H.layout.data + off))
      pure (.value (some t) (H.layout.data + off))

/-- `case N_VARIABLE`. The entry that the identifier stands for is recorded. -/
def variableInfer (loc : Loc) : Inf CUPValue := do
  let name ← nextString
  let s ← Run.get
  let v ← Run.lift (varLookup s.cup name.bytes s.cup.scope)
  Run.modify fun t =>
    { t with cup := { t.cup with trace := t.cup.trace ++ [.entry name s.cup.scope v] } }
  pushNew [.tok loc, .svalue name]
  pure (.variable v name.bytes)

/-- `case T_THIS`. -/
def thisInfer (loc : Loc) : Inf CUPValue := do
  let s ← Run.get
  match ← Run.lift (varLookup s.cup [36] s.cup.scope) with
  | none => pure .error
  | some v =>
    pushNew [.tok loc]
    pure (.variable (some v) [36])

/-- `state->scope++`. -/
def nextScope : Inf Unit :=
  Run.modify fun s => { s with cup := { s.cup with scope := s.cup.scope + 1 } }

/-- `at`. -/
def atInfer (rec : Infer) : Inf CUPValue := do
  let left ← rec false false
  nextScope
  logEvent (.dropped (← rec false false))
  logEvent (.dropped (← rec true false))
  pure left

/-- `case T_RETURN`. -/
def returnInfer (rec : Infer) (rtype : Bool) : Inf CUPValue := do
  match ← rec false false with
  | .value t _ =>
    if t = some (.base .typeVoid) then Run.stop (.assertion "0")
    else if ¬ rtype then Run.stop (.assertion "0")
    else pure (.any (some (.base .typeVoid)))
  | _ => Run.stop (.assertion "0")

/-- `inferTypes`, to the depth `n`. -/
def inferTypes : Nat → Infer
  | 0, _, _ => Run.stop .fuel
  | n + 1, rtype, array => do
    match ← nextNode with
    | .tok loc =>
      match loc.token with
      | .nBlock =>
        nextScope
        let count ← nextValue
        pushNew [.tok loc, .value count]
        defFor H (inferTypes n) rtype count fun _ => .value (some (.base .typeVoid)) 0
      | .tComma =>
        let count ← nextValue
        pushNew [.tok loc, .value count]
        defFor H (inferTypes n) rtype count (if array then fnArray else fnComma)
      | .nArray => arrayInfer H (inferTypes n) loc
      | .tNumber =>
        let value ← nextValue
        pushNew [.tok loc, .value value]
        pure (.value (some (.base .typeInt)) value)
      | .tString | .tMstring => stringInfer H loc
      | .tThis => thisInfer loc
      | .tIdentifier => variableInfer loc
      | .tDot => dotInfer H (inferTypes n) loc
      | .tEq =>
        pushNew [.tok loc]
        eqInfer (inferTypes n)
      | .tCall => callInfer H (inferTypes n) loc
      | .tOsb =>
        let mark := (← Run.get).new.length
        pushNew [.tok loc]
        osbInfer H (inferTypes n) loc mark
      | .tAt =>
        pushNew [.tok loc]
        atInfer (inferTypes n)
      | .tReturn =>
        pushNew [.tok loc]
        returnInfer (inferTypes n) rtype
      | _ => pure .error
    | _ => Run.stop (.fault "a payload read as a token")

/-- `resolve`: whether it failed, and the new nodes; the depth covers every tree. -/
def resolve (s : CUPState) (nodes : List Node) : Lib.Res ResState Bool :=
  (do
    match ← inferTypes H (nodes.length + 1) false false with
    | .error => pure true
    | .any _ => Run.stop (.assertion "0")
    | _ => pure false : Inf Bool) { cup := s, range := nodes }

end Cup
