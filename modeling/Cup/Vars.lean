/-
  Variables and scopes (`src/parser.c`): the open-addressing map over the variable vector, the
  lookup along the chain of parent scopes, and the scope table.

  `vars_map` has one slot for each variable that fits the vector; a slot holds the index of a
  variable plus one, or 0. A `CVariable*` is the index of the variable.
-/
import Cup.Types

namespace Cup

open Lib (Stop Run)

/-! ## The map -/

/-- `hash_key`. -/
def hashKey (s : Bytes) (scope : Nat) : Nat :=
  s.foldl (fun h c => (h ^^^ c.toNat) * 1099511628211 % 2 ^ 64)
    (1469598103934665603 ^^^ (scope * 0x9E3779B97F4A7C15 % 2 ^ 64))

/-- `while (vars_map[i]) i = (i + 1) & mask`. -/
def freeSlot (map : List Nat) (mask : Nat) : Nat → Nat → Except Stop Nat
  | 0, _ => .error .fuel
  | n + 1, i =>
    match map[i]? with
    | none => .error (.fault "read past the map")
    | some 0 => .ok i
    | some (_ + 1) => freeSlot map mask n ((i + 1) &&& mask)

/-- `varInsert`, on the map. -/
def varInsert (vars : CVec CVariable) (map : List Nat) (id : Nat) : Except Stop (List Nat) := do
  let mask := vars.capacity / sizeofCVariable - 1
  let v ← vars.at id
  let i ← freeSlot map mask map.length (hashKey v.name.bytes v.scope &&& mask)
  .ok (map.set i (id + 1))

/-- `putVar`, on the vector and the map. -/
def putVarCore (vars : CVec CVariable) (map : List Nat) (var : CVariable) :
    Except Stop (CVec CVariable × List Nat) := do
  let cap := vars.capacity
  let vars ← vectorPush sizeofCVariable vars [var]
  let pos := vars.items.length
  if vars.capacity ≠ cap then
    let map := List.replicate (vars.capacity / sizeofCVariable) 0
    let map ← (List.range pos).foldlM (varInsert vars) map
    .ok (vars, map)
  else
    let map ← varInsert vars map (pos - 1)
    .ok (vars, map)

/-- `putVar`. -/
def putVar (name : CStr) (type : Option TRef) (value scope : Nat) : Comp Unit := do
  let s ← Run.get
  let (vars, map) ← Run.lift (putVarCore s.vars s.varsMap ⟨name, type, value, scope⟩)
  Run.set { s with vars := vars, varsMap := map }

/-- The loop of `varFind`, `n` slots from slot `i` on. -/
def varFindLoop (vars : CVec CVariable) (map : List Nat) (mask : Nat) (name : Bytes)
    (scope : Nat) : Nat → Nat → Except Stop (Option Nat)
  | 0, _ => .ok none
  | n + 1, i =>
    match map[i]? with
    | none => .error (.fault "read past the map")
    | some 0 => .ok none
    | some (id + 1) => do
      let v ← vars.at id
      if v.scope = scope ∧ v.name.bytes = name then .ok (some id)
      else varFindLoop vars map mask name scope n ((i + 1) &&& mask)

/-- `varFind`. -/
def varFind (s : CUPState) (name : Bytes) (scope : Nat) : Except Stop (Option Nat) :=
  if s.vars.capacity = 0 then .ok none
  else
    let ncap := s.vars.capacity / sizeofCVariable
    let mask := ncap - 1
    varFindLoop s.vars s.varsMap mask name scope ncap (hashKey name scope &&& mask)

/-! ## Scopes -/

/-- `varLookup`, along at most `n` scopes. -/
def varLookupLoop (s : CUPState) (name : Bytes) : Nat → Nat → Except Stop (Option Nat)
  | 0, _ => .error .fuel
  | n + 1, scope => do
    match ← varFind s name scope with
    | some v => .ok (some v)
    | none =>
      if scope = 0 then .ok none
      else match s.scopes[scope]? with
        | none => .error (.fault "read past the scopes")
        | some parent => varLookupLoop s name n parent

/-- `varLookup`. -/
def varLookup (s : CUPState) (name : Bytes) (scope : Nat) : Except Stop (Option Nat) :=
  varLookupLoop s name (scope + 1) scope

/-- `scope_enter`. -/
def scopeEnter : Comp Nat := do
  Run.modify fun s => if s.scopes = [] then { s with scopes := [sizeMax], scope := 0 } else s
  let s ← Run.get
  let thisScope := s.scopes.length
  Run.set { s with scopes := s.scopes ++ [s.scope], scope := thisScope }
  pure thisScope

/-- `scope_leave`. -/
def scopeLeave : Comp Unit := do
  let s ← Run.get
  match s.scopes[s.scope]? with
  | none => Run.stop (.assertion "state->scope < state->scopes.size / sizeof(size_t)")
  | some parent =>
    if parent = sizeMax then Run.stop (.assertion "parent != SIZE_MAX")
    else Run.set { s with scope := parent }

/-- What the parser does at an identifier: look it up from the current scope and make an
    entry there when there is none. The entry it then stands for is recorded. -/
def declare (name : CStr) : Comp Unit := do
  let s ← Run.get
  match ← Run.lift (varLookup s name.bytes s.scope) with
  | some v => note (.entry name s.scope (some v))
  | none =>
    putVar name none 0 s.scope
    note (.entry name s.scope (some s.vars.items.length))

end Cup
