/-
  The type table (`src/types.c`): `cup_type` returns the entry of `state->types` that a request
  matches or makes a new one, and `cup_type_parse` reads the signature strings of externals.

  `cup_type` is `static` recursive through `newtype`, which interns the component types again;
  the model counts the depth. What `data` points to differs with the kind of the type and with
  the caller, so it is a `TData`. The words that `cup_malloc` returns uninitialised are the
  parameter `mem`.
-/
import Cup.Lexer

namespace Cup

open Lib (Stop Run)

/-- The `data` argument of `cup_type`: NULL, the payload of a type (`it->data`), a type, a
    callback, or an array of type pointers. -/
inductive TData where
  | null
  | payload (t : TRef)
  | type (t : TRef)
  | code (f : Nat)
  | slots (l : List Slot)
  deriving DecidableEq, Repr

/-- The size in bytes of a base type. -/
def baseSize : CupKind → Nat
  | .typeInt | .typeDouble | .typeUint64 | .typeSint64 => 8
  | .typeFloat | .typeUint32 | .typeSint32 => 4
  | .typeUint16 | .typeSint16 => 2
  | .typeUint8 | .typeSint8 => 1
  | _ => 0

/-- The static types `cup_type_void`, `cup_type_int`, … -/
def baseType (k : CupKind) : CUPType := ⟨k, baseSize k, baseSize k, .simple⟩

/-- The type a pointer points to. -/
def typeAt (types : List CUPType) : TRef → Option CUPType
  | .base k => some (baseType k)
  | .heap i => types[i]?

/-- `ptr->data == data` for entry `i`. -/
def sameData (i : Nat) : TData → Bool
  | .payload (.heap j) => i == j
  | _ => false

/-- The first `n` pointers at `data`. -/
def dataSlots (types : List CUPType) (data : TData) (n : Nat) : Except Stop (List Slot) :=
  let read (l : List Slot) : Except Stop (List Slot) :=
    if n ≤ l.length then .ok (l.take n) else .error (.fault "read past the array")
  match data with
  | .slots l => read l
  | .payload (.heap j) =>
    match types[j]? with
    | some ⟨_, _, _, .func ret args⟩ => read (ret :: args)
    | _ => .error (.fault "a payload without pointers")
  | _ => .error (.fault "data is no array of types")

/-- The tests of `cup_type_getEx` on entry `i`. A pointer or an array of the size that is asked
    for, found at another address, ends the process. -/
def entryMatches (types : List CUPType) (type : CupKind) (size : Nat) (data : TData) (i : Nat)
    (ptr : CUPType) : Except Stop Bool :=
  if ptr.cuptype ≠ type then .ok false
  else if ptr.size ≠ size then .ok false
  else if sameData i data then .ok true
  else match type with
    | .typeFunction => do
      let own ← dataSlots types (.payload (.heap i)) (size + 1)
      let other ← dataSlots types data (size + 1)
      .ok (decide (own = other))
    | .typeMeta => .ok false
    | _ => .error (.exit 1)

/-- `cup_type_getEx` over the entries from `i` on. -/
def cupTypeGetEx (types : List CUPType) (type : CupKind) (size : Nat) (data : TData) :
    List CUPType → Nat → Except Stop (Option TRef)
  | [], _ => .ok none
  | ptr :: rest, i => do
    if ← entryMatches types type size data i ptr then .ok (some (.heap i))
    else cupTypeGetEx types type size data rest (i + 1)

/-- `cup_type_get`. -/
def cupTypeGet (types : List CUPType) (type : CupKind) (size : Nat) (data : TData) :
    Except Stop (Option TRef) :=
  match type with
  | .typePointer | .typeArray | .typeFunction | .typeMeta =>
    cupTypeGetEx types type size data types 0
  | .typeStruct | .typeCount => .error (.assertion "0")
  | k => .ok (some (.base k))

variable (mem : Nat → Nat → Slot)

/-- The loop of `newtype` over the parameters from `j` on; `args` is what was written so far,
    `garbage` what the new block holds. -/
def newtypeArgs (rec : CupKind → Nat → TData → Comp TRef) (garbage : Nat → Slot) :
    List Slot → Nat → List Slot → Comp (List Slot)
  | [], _, args => pure args
  | .null :: rest, j, args => newtypeArgs rec garbage rest (j + 1) (args ++ [garbage j])
  | .junk _ :: _, _, _ => Run.stop (.fault "a pointer that was never set")
  | .type t :: rest, j, args => do
    if t = .base .typeVoid then Run.stop (.assertion "it != &cup_type_void")
    else match typeAt (← Run.get).types t with
      | none => Run.stop (.fault "a pointer to no type")
      | some item =>
        let t' ← rec item.cuptype item.size (.payload t)
        newtypeArgs rec garbage rest (j + 1) (args ++ [.type t'])

/-- `newtype`, with `cup_type` as `rec`. -/
def newtype (rec : CupKind → Nat → TData → Comp TRef) (type : CupKind) (size : Nat)
    (data : TData) : Comp CUPType := do
  let types := (← Run.get).types
  match type with
  | .typeMeta =>
    match data with
    | .code f => pure ⟨.typeMeta, 0, size, .gen f⟩
    | _ => Run.stop (.fault "data is no callback")
  | .typePointer | .typeArray =>
    match data with
    | .type t =>
      match typeAt types t with
      | none => Run.stop (.fault "a pointer to no type")
      | some item =>
        let element ← rec item.cuptype item.size (.payload t)
        if type = .typePointer then pure ⟨.typePointer, 8, 8, .element element⟩
        else pure ⟨.typeArray, 0, size, .element element⟩
    -- the pointers in an array, or the words of a payload, read as the header of a type
    | _ =>
      noteGap .header
      Run.stop (.fault "data is no type")
  | .typeFunction => do
    let garbage := mem types.length
    match ← Run.lift (dataSlots types data (size + 1)) with
    | [] => Run.stop (.fault "data is no array of types")
    | ret :: params =>
      let args ← newtypeArgs rec garbage params 0 []
      pure ⟨.typeFunction, 0, size, .func ret (args ++ [.type (.base .typeVoid)])⟩
  | _ => Run.stop (.assertion "0")

/-- `cup_type`, to the depth `n`. -/
def cupTypeFuel : Nat → CupKind → Nat → TData → Comp TRef
  | 0, _, _, _ => Run.stop .fuel
  | n + 1, type, size, data => do
    match ← Run.lift (cupTypeGet (← Run.get).types type size data) with
    | some t => pure t
    | none =>
      if data = .null then exit 1
      else
        let newt ← newtype mem (cupTypeFuel n) type size data
        let types := (← Run.get).types
        Run.modify fun s => { s with types := types ++ [newt] }
        pure (.heap types.length)

/-- `cup_type`; the `size` is a `uint16_t`. -/
def cupType (type : CupKind) (size : Nat) (data : TData) : Comp TRef := do
  let depth := (← Run.get).types.length + 2
  cupTypeFuel mem depth type (size % 2 ^ 16) data

/-- `cup_typemeta`. -/
def cupTypemeta (size gen : Nat) : Comp TRef := cupType mem .typeMeta size (.code gen)

/-! ## Signatures -/

/-- `isalnum`. -/
def isalnum (c : UInt8) : Bool :=
  (48 ≤ c && c ≤ 57) || (65 ≤ c && c ≤ 90) || (97 ≤ c && c ≤ 122)

/-- The type codes of `parse_one_type` other than `p`. -/
def typeCode (code : Bytes) : Option CupKind :=
  if code = ascii ['v'] then some .typeVoid
  else if code = ascii ['i'] then some .typeInt
  else if code = ascii ['f'] then some .typeFloat
  else if code = ascii ['d'] then some .typeDouble
  else if code = ascii ['u', '8'] then some .typeUint8
  else if code = ascii ['s', '8'] then some .typeSint8
  else if code = ascii ['u', '1', '6'] then some .typeUint16
  else if code = ascii ['s', '1', '6'] then some .typeSint16
  else if code = ascii ['u', '3', '2'] then some .typeUint32
  else if code = ascii ['s', '3', '2'] then some .typeSint32
  else if code = ascii ['u', '6', '4'] then some .typeUint64
  else if code = ascii ['s', '6', '4'] then some .typeSint64
  else none

/-- `while (**p == '*')`: a pointer type for each star. -/
def pointerStars : Bytes → TRef → Comp (TRef × Bytes)
  | c :: p, base => do
    if c = 42 then
      let t ← cupType mem .typePointer 8 (.slots [.type base])
      pointerStars p t
    else pure (base, c :: p)
  | [], base => pure (base, [])

/-- `parse_one_type`: the type, or NULL, and the text behind it. -/
def parseOneType (p : Bytes) : Comp (Option TRef × Bytes) := do
  let code := p.takeWhile isalnum
  let p := p.dropWhile isalnum
  if code = ascii ['p'] then
    let t ← cupType mem .typePointer 8 (.slots [.type (.base .typeUint8)])
    pure (some t, p)
  else match typeCode code with
    | none => pure (none, p)
    | some k =>
      let (t, p) ← pointerStars mem p (.base k)
      pure (some t, p)

/-- The parameter loop of `cup_type_parse`, with at most `n` more parameters. -/
def parseArgs : Nat → Bytes → List Slot → Comp (List Slot)
  | 0, _, _ => exit 1
  | n + 1, p, args => do
    match ← parseOneType mem p with
    | (none, _) => exit 1
    | (some t, p) =>
      let args := args ++ [.type t]
      if peekChar p = 44 then parseArgs n (p.drop 1) args
      else if peekChar p = 41 then pure args
      else parseArgs n p args

/-- The parameters of `cup_type_parse`, behind the opening bracket. -/
def parseParams (p : Bytes) : Comp (List Slot) :=
  if peekChar p ≠ 41 then parseArgs mem 254 p [] else pure []

/-- What `cup_type_parse` writes to `args`: the return type, or NULL, the parameters and the
    sentinel. -/
def signatureSlots (ret : Option TRef) (args : List Slot) : List Slot :=
  let slot : Slot := match ret with
    | some t => .type t
    | none => .null
  slot :: args ++ [.type (.base .typeVoid)]

/-- `args[argc + 1] = &cup_type_void` for 254 parameters. -/
def argsOverflow : Stop := .fault "write past the array of parameters"

/-- `cup_type_parse`. -/
def cupTypeParse (sig : Bytes) : Comp (Option TRef) := do
  let (ret, p) ← parseOneType mem sig
  if peekChar p = 40 then
    let args ← parseParams mem (p.drop 1)
    let slots := signatureSlots ret args
    -- `args` is an array of `UINT8_MAX` pointers, NULL at first
    if 255 < slots.length then
      noteGap .sentinel
      Run.stop argsOverflow
    else
      let slots := slots ++ List.replicate (255 - slots.length) .null
      let t ← cupType mem .typeFunction (args.length + 1) (.slots slots)
      pure (some t)
  else if peekChar p = 0 then pure ret
  else exit 1

/-! ## Frame -/

/-- All of the state but the type table and the unguarded accesses. -/
def CUPState.butTypes (s : CUPState) : CUPState := { s with types := [], gaps := [] }

/-- `x` touches the type table only, and fails no assertion of a vector. -/
abbrev TypesOnly {α : Type} (x : Comp α) : Prop := x.Keeps CUPState.butTypes (· ≠ vecAssert)

/-- How a search of the table can stop. -/
def tableStops : List Stop :=
  [.fault "read past the array", .fault "a payload without pointers",
    .fault "data is no array of types", .exit 1, .assertion "0"]

theorem dataSlots_error {types : List CUPType} {data : TData} {n : Nat} {e : Stop}
    (h : dataSlots types data n = .error e) : e ∈ tableStops := by
  unfold dataSlots at h
  dsimp only at h
  repeat' split at h
  all_goals cases h
  all_goals decide

theorem entryMatches_error {types : List CUPType} {type : CupKind} {size : Nat}
    {data : TData} {i : Nat} {ptr : CUPType} {e : Stop}
    (h : entryMatches types type size data i ptr = .error e) : e ∈ tableStops := by
  unfold entryMatches at h
  split at h
  · cases h
  · split at h
    · cases h
    · split at h
      · cases h
      · split at h
        · cases h₁ : dataSlots types (.payload (.heap i)) (size + 1) with
          | error e₁ =>
            rw [h₁] at h
            cases h
            exact dataSlots_error h₁
          | ok own =>
            cases h₂ : dataSlots types data (size + 1) with
            | error e₂ =>
              rw [h₁, h₂] at h
              cases h
              exact dataSlots_error h₂
            | ok other =>
              rw [h₁, h₂] at h
              cases h
        · cases h
        · cases h
          decide

theorem cupTypeGetEx_error {types : List CUPType} {type : CupKind} {size : Nat}
    {data : TData} {l : List CUPType} {i : Nat} {e : Stop}
    (h : cupTypeGetEx types type size data l i = .error e) : e ∈ tableStops := by
  induction l generalizing i with
  | nil => cases h
  | cons ptr l ih =>
    unfold cupTypeGetEx at h
    cases hm : entryMatches types type size data i ptr with
    | error e' =>
      rw [hm] at h
      cases h
      exact entryMatches_error hm
    | ok b =>
      rw [hm] at h
      cases b with
      | true => cases h
      | false => exact ih h

theorem cupTypeGet_error {types : List CUPType} {type : CupKind} {size : Nat}
    {data : TData} {e : Stop} (h : cupTypeGet types type size data = .error e) :
    e ∈ tableStops := by
  unfold cupTypeGet at h
  split at h
  all_goals first | exact cupTypeGetEx_error h | skip
  all_goals cases h
  all_goals decide

theorem tableStops_ne_vecAssert {e : Stop} (h : e ∈ tableStops) : e ≠ vecAssert := by
  rintro rfl
  exact absurd h (by decide)

variable {mem}

theorem newtypeArgs_keeps {rec : CupKind → Nat → TData → Comp TRef} {garbage : Nat → Slot}
    (hrec : ∀ k n d, TypesOnly (rec k n d)) (params : List Slot) (j : Nat) (args : List Slot) :
    TypesOnly (newtypeArgs rec garbage params j args) := by
  induction params generalizing j args with
  | nil => exact Run.keeps_pure _
  | cons it rest ih =>
    cases it with
    | null => exact ih _ _
    | junk w => exact Run.keeps_stop (by decide)
    | type t =>
      unfold newtypeArgs
      split
      · exact Run.keeps_stop (by decide)
      · refine Run.keeps_bind Run.keeps_get fun s => ?_
        split
        · exact Run.keeps_stop (by decide)
        · exact Run.keeps_bind (hrec _ _ _) fun t' => ih _ _

theorem newtype_keeps {rec : CupKind → Nat → TData → Comp TRef}
    (hrec : ∀ k n d, TypesOnly (rec k n d)) (type : CupKind) (size : Nat) (data : TData) :
    TypesOnly (newtype mem rec type size data) := by
  unfold newtype
  refine Run.keeps_bind Run.keeps_get fun s => ?_
  dsimp only
  split
  · split
    · exact Run.keeps_pure _
    · exact Run.keeps_stop (by decide)
  · split
    · split
      · exact Run.keeps_stop (by decide)
      · refine Run.keeps_bind (hrec _ _ _) fun element => ?_
        exact Run.keeps_pure _
    · exact Run.keeps_bind (Run.keeps_modify fun _ => rfl) fun _ => Run.keeps_stop (by decide)
  · split
    · split
      · exact Run.keeps_stop (by decide)
      · refine Run.keeps_bind (hrec _ _ _) fun element => ?_
        exact Run.keeps_pure _
    · exact Run.keeps_bind (Run.keeps_modify fun _ => rfl) fun _ => Run.keeps_stop (by decide)
  · refine Run.keeps_bind (Run.keeps_lift fun _ h =>
      tableStops_ne_vecAssert (dataSlots_error h)) fun slots => ?_
    split
    · exact Run.keeps_stop (by decide)
    · exact Run.keeps_bind (newtypeArgs_keeps hrec _ _ _) fun args => Run.keeps_pure _
  · exact Run.keeps_stop (by decide)

theorem cupTypeFuel_keeps (n : Nat) (type : CupKind) (size : Nat) (data : TData) :
    TypesOnly (cupTypeFuel mem n type size data) := by
  induction n generalizing type size data with
  | zero => exact Run.keeps_stop (by decide)
  | succ n ih =>
    unfold cupTypeFuel
    refine Run.keeps_bind Run.keeps_get fun s => ?_
    refine Run.keeps_bind (Run.keeps_lift fun _ h =>
      tableStops_ne_vecAssert (cupTypeGet_error h)) fun t => ?_
    split
    · exact Run.keeps_pure _
    · split
      · exact Run.keeps_stop (by decide)
      · refine Run.keeps_bind (newtype_keeps ih _ _ _) fun newt => ?_
        refine Run.keeps_bind Run.keeps_get fun s => ?_
        exact Run.keeps_bind (Run.keeps_modify fun _ => rfl) fun _ => Run.keeps_pure _

/-- `cup_type` touches the type table only. -/
theorem cupType_keeps (type : CupKind) (size : Nat) (data : TData) :
    TypesOnly (cupType mem type size data) :=
  Run.keeps_bind Run.keeps_get fun _ => cupTypeFuel_keeps _ _ _ _

/-! ### Growth -/

/-- The type table of the first state is the start of that of the second one. -/
def TypesGrow (s s' : CUPState) : Prop := s.types <+: s'.types

theorem TypesGrow.refl (s : CUPState) : TypesGrow s s := List.prefix_refl _

theorem TypesGrow.trans (s t u : CUPState) (h : TypesGrow s t) (h' : TypesGrow t u) :
    TypesGrow s u :=
  List.IsPrefix.trans h h'

theorem newtypeArgs_grows {rec : CupKind → Nat → TData → Comp TRef} {garbage : Nat → Slot}
    (hrec : ∀ k n d, Run.Along TypesGrow (rec k n d)) (params : List Slot) (j : Nat)
    (args : List Slot) : Run.Along TypesGrow (newtypeArgs rec garbage params j args) := by
  induction params generalizing j args with
  | nil => exact Run.along_pure TypesGrow.refl _
  | cons it rest ih =>
    cases it with
    | null => exact ih _ _
    | junk w => exact Run.along_stop _
    | type t =>
      unfold newtypeArgs
      split
      · exact Run.along_stop _
      · refine Run.along_bind TypesGrow.trans (Run.along_get TypesGrow.refl) fun s => ?_
        split
        · exact Run.along_stop _
        · exact Run.along_bind TypesGrow.trans (hrec _ _ _) fun t' => ih _ _

theorem newtype_grows {rec : CupKind → Nat → TData → Comp TRef}
    (hrec : ∀ k n d, Run.Along TypesGrow (rec k n d)) (type : CupKind) (size : Nat)
    (data : TData) : Run.Along TypesGrow (newtype mem rec type size data) := by
  unfold newtype
  refine Run.along_bind TypesGrow.trans (Run.along_get TypesGrow.refl) fun s => ?_
  dsimp only
  split
  · split
    · exact Run.along_pure TypesGrow.refl _
    · exact Run.along_stop _
  · split
    · split
      · exact Run.along_stop _
      · exact Run.along_bind TypesGrow.trans (hrec _ _ _) fun _ => Run.along_pure TypesGrow.refl _
    · exact Run.along_bind TypesGrow.trans (fun s => TypesGrow.refl s) fun _ => Run.along_stop _
  · split
    · split
      · exact Run.along_stop _
      · exact Run.along_bind TypesGrow.trans (hrec _ _ _) fun _ => Run.along_pure TypesGrow.refl _
    · exact Run.along_bind TypesGrow.trans (fun s => TypesGrow.refl s) fun _ => Run.along_stop _
  · refine Run.along_bind TypesGrow.trans (Run.along_lift TypesGrow.refl _) fun slots => ?_
    split
    · exact Run.along_stop _
    · exact Run.along_bind TypesGrow.trans (newtypeArgs_grows hrec _ _ _) fun _ =>
        Run.along_pure TypesGrow.refl _
  · exact Run.along_stop _

theorem cupTypeFuel_grows (n : Nat) (type : CupKind) (size : Nat) (data : TData) :
    Run.Along TypesGrow (cupTypeFuel mem n type size data) := by
  induction n generalizing type size data with
  | zero => exact Run.along_stop _
  | succ n ih =>
    unfold cupTypeFuel
    refine Run.along_bind TypesGrow.trans (Run.along_get TypesGrow.refl) fun s => ?_
    refine Run.along_bind TypesGrow.trans (Run.along_lift TypesGrow.refl _) fun t => ?_
    split
    · exact Run.along_pure TypesGrow.refl _
    · split
      · exact Run.along_stop _
      · refine Run.along_bind TypesGrow.trans (newtype_grows ih _ _ _) fun newt => ?_
        exact fun s => List.prefix_append s.types [newt]

/-- `cup_type` adds to the end of the table. -/
theorem cupType_grows (type : CupKind) (size : Nat) (data : TData) :
    Run.Along TypesGrow (cupType mem type size data) :=
  Run.along_bind TypesGrow.trans (Run.along_get TypesGrow.refl) fun _ => cupTypeFuel_grows _ _ _ _

/-- An entry stays where it is. -/
theorem typeAt_of_prefix {types types' : List CUPType} (h : types <+: types') {t : TRef}
    {ty : CUPType} (ht : typeAt types t = some ty) : typeAt types' t = some ty := by
  cases t with
  | base k => exact ht
  | heap i =>
    obtain ⟨more, rfl⟩ := h
    have hi : i < types.length := (List.getElem?_eq_some_iff.mp ht).1
    exact (List.getElem?_append_left hi).trans ht

theorem pointerStars_keeps (p : Bytes) (base : TRef) : TypesOnly (pointerStars mem p base) := by
  induction p generalizing base with
  | nil => exact Run.keeps_pure _
  | cons c p ih =>
    unfold pointerStars
    split
    · exact Run.keeps_bind (cupType_keeps _ _ _) fun t => ih t
    · exact Run.keeps_pure _

theorem parseOneType_keeps (p : Bytes) : TypesOnly (parseOneType mem p) := by
  unfold parseOneType
  dsimp only
  split
  · exact Run.keeps_bind (cupType_keeps _ _ _) fun t => Run.keeps_pure _
  · split
    · exact Run.keeps_pure _
    · exact Run.keeps_bind (pointerStars_keeps _ _) fun _ => Run.keeps_pure _

theorem parseArgs_keeps (n : Nat) (p : Bytes) (args : List Slot) :
    TypesOnly (parseArgs mem n p args) := by
  induction n generalizing p args with
  | zero => exact Run.keeps_stop (by decide)
  | succ n ih =>
    unfold parseArgs
    refine Run.keeps_bind (parseOneType_keeps _) fun r => ?_
    split
    · exact Run.keeps_stop (by decide)
    · dsimp only
      split
      · exact ih _ _
      · split
        · exact Run.keeps_pure _
        · exact ih _ _

/-- So does the parser of signatures. -/
theorem cupTypeParse_keeps (sig : Bytes) : TypesOnly (cupTypeParse mem sig) := by
  unfold cupTypeParse
  refine Run.keeps_bind (parseOneType_keeps _) fun r => ?_
  dsimp only
  split
  · refine Run.keeps_bind ?_ fun args => ?_
    · unfold parseParams
      split
      · exact parseArgs_keeps _ _ _
      · exact Run.keeps_pure _
    · split
      · exact Run.keeps_bind (Run.keeps_modify fun _ => rfl) fun _ => Run.keeps_stop (by decide)
      · exact Run.keeps_bind (cupType_keeps _ _ _) fun _ => Run.keeps_pure _
  · split
    · exact Run.keeps_pure _
    · exact Run.keeps_stop (by decide)

end Cup
