/-
  Symbols that the host registers (`src/moduler.c`): the fresh state `cup_new`,
  `cup_add_symbol`, and the symbols of shared libraries, `externalSymbol`.

  `Host` is what the process gives the compiler: the contents of uninitialised memory and the
  dynamic loader.
-/
import Cup.Vars

namespace Cup

open Lib (Stop Run)

/-- The environment of the compiler. `mem i j` is word `j` of the block allocated for type
    `i`; `dlopen name` is a handle and `dlsym handle name` an address, 0 for NULL; `fopen` says
    whether a file opens. -/
structure Host where
  mem : Nat → Nat → Slot
  dlsym : Nat → Bytes → Nat
  dlopen : Bytes → Nat
  fopen : Bytes → Bool

/-- `cup_add_symbol`. The name is not NULL. -/
def cupAddSymbol (name : Bytes) (val : Nat) (type : Option TRef) : Comp Int := do
  if name = [] then pure (-1)
  else
    let (s, dup) := idToken (← Run.get) name
    Run.set s
    match dup with
    | none => pure (-2)
    | some svalue =>
      match ← Run.lift (varLookup s svalue.bytes 1) with
      | some _ => pure (-3)
      | none =>
        putVar svalue type val 1
        pure 0

/-- The search of `externalSymbol` through the loaded libraries. -/
def findSymbol (host : Host) (name : Bytes) : List Nat → Option Nat
  | [] => none
  | handle :: rest =>
    if host.dlsym handle name ≠ 0 then some (host.dlsym handle name)
    else findSymbol host name rest

/-- `externalSymbol`. -/
def externalSymbol (host : Host) (name : CStr) (sigIdx : Nat) : Comp Unit := do
  let s ← Run.get
  match findSymbol host name.bytes s.externals with
  | none => exit 1
  | some fn =>
    match getData s sigIdx with
    | none =>
      noteGap .literal
      Run.stop (.fault "NULL dereference")
    | some sig =>
      let type ← cupTypeParse host.mem (s.data.drop sig)
      match ← Run.lift (varLookup (← Run.get) name.bytes 1) with
      | some _ => exit 1
      | none => putVar name type fn 0

/-- The callback of the type of `$`, `meta_this`. -/
def metaThis : Nat := 1

/-- `cup_new`; `state` is the address of the new state. -/
def cupNew (host : Host) (state : Nat) : Comp Unit := do
  Run.set { scopes := [sizeMax, 0], scope := 1 }
  let thistype ← cupTypemeta host.mem 0 metaThis
  let _ ← cupAddSymbol (ascii ['$']) state (some thistype)

end Cup
