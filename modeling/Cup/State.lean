/-
  The compiler state `struct CUPState` (`include/cup.h`) with the types and variables it
  owns (`include/libcupext.h`).

  A `const CUPType*` is a `TRef`: one of the static base types or an entry of the type table
  (`types.data[i]`, whose position is its identity). Memory that `cup_malloc` returned and
  nobody wrote yet holds `Slot.junk`. `trace` and `gaps` are ghost fields: `trace` records which variable
  entries the passes used and which special cases the parser met, and `gaps` the accesses of the
  parser that go wrong; no code reads them.
-/
import Cup.Token
import Cup.Vector

namespace Cup

open Lib (Stop Run)

/-- `SIZE_MAX`. -/
def sizeMax : Nat := 2 ^ 64 - 1

/-- `enum CUP_TYPE`. -/
inductive CupKind where
  | typeVoid | typeInt | typeFloat | typeDouble | typeUint8 | typeSint8 | typeUint16
  | typeSint16 | typeUint32 | typeSint32 | typeUint64 | typeSint64 | typePointer | typeArray
  | typeFunction | typeStruct | typeMeta | typeCount
  deriving DecidableEq, Repr

/-- A `const CUPType*` that is not NULL. -/
inductive TRef where
  | base (k : CupKind)
  | heap (i : Nat)
  deriving DecidableEq, Repr

/-- The content of a pointer-sized cell: NULL, a type, or whatever the memory held before. -/
inductive Slot where
  | null
  | type (t : TRef)
  | junk (w : Nat)
  deriving DecidableEq, Repr

/-- The part of a `CUPType` after its four header bytes. `func` has the return type and the
    `size + 1` entries of `argstype`. -/
inductive TPayload where
  | simple
  | element (t : TRef)
  | gen (f : Nat)
  | func (returntype : Slot) (argstype : List Slot)
  deriving DecidableEq, Repr

/-- `union CUPType`. -/
structure CUPType where
  cuptype : CupKind
  alignment : Nat
  size : Nat
  data : TPayload
  deriving DecidableEq, Repr

/-- `struct CVariable`. -/
structure CVariable where
  name : CStr
  typee : Option TRef
  value : Nat
  scope : Nat
  deriving DecidableEq, Repr

/-- `sizeof(CVariable)`. -/
def sizeofCVariable : Nat := 32

/-- Ghost events: a pass used entry `var` for the identifier `name` in `scope`; the parser
    reserved `len` slots of array storage at `off`; it spliced an empty vector where a tree is
    read; it left an array literal of one element without a list header; it extended a list by
    an empty one. -/
inductive Event where
  | entry (name : CStr) (scope : Nat) (var : Option Nat)
  | reserve (off len : Nat)
  | missing
  | bare
  | emptyTail
  deriving DecidableEq, Repr

/-- Ghost: an access of the parser that nothing guards. The token of a right operand without nodes;
    a library name or signature at the end of the pool; three characters of a shorter library name;
    the pointers in an array, or the words of a payload, as the header of a type; the sentinel
    behind 254 parameters of a signature. -/
inductive Gap where
  | operand
  | literal
  | suffix
  | header
  | sentinel
  deriving DecidableEq, Repr

/-- `struct CUPState`. `input` and `priv` are the texts `input_stream` and `priv_stream`
    point to; `strings` counts the identifier strings allocated so far. -/
structure CUPState where
  input : Bytes := []
  priv : Option Bytes := none
  nodes : Node2 := ⟨⟨.tEof, 0, 0⟩, .value 0⟩
  scopes : List Nat := []
  scope : Nat := 0
  data : Bytes := []
  modules : List Bytes := []
  externals : List Nat := []
  vars : CVec CVariable := {}
  varsMap : List Nat := []
  types : List CUPType := []
  bytecodePath : Option Bytes := none
  codePath : Option Bytes := none
  tempmem : List Slot := []
  strings : Nat := 0
  trace : List Event := []
  gaps : List Gap := []
  deriving DecidableEq, Repr

/-- Code of the compiler. -/
abbrev Comp := Run CUPState

/-- Append a ghost event. -/
def note (e : Event) : Comp Unit := Run.modify fun s => { s with trace := s.trace ++ [e] }

/-- Record an unguarded access. -/
def noteGap (g : Gap) : Comp Unit := Run.modify fun s => { s with gaps := s.gaps ++ [g] }

/-- `exit(n)`. -/
def exit {α : Type} (n : Nat) : Comp α := Run.stop (.exit n)

/-- `CUPState.nodes.token`. -/
def CUPState.token (s : CUPState) : CTType := s.nodes.token

end Cup
