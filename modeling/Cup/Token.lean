/-
  Tokens, source locations and AST nodes (`include/token.h`, `include/libcupext.h`,
  `include/cup.h`).

  `Node` is the 8-byte union of the source. A stream of nodes holds tokens with their
  location and, after some tokens, one payload node; the model keeps apart which member of
  the union was written last. `CStr` is a `const char*` to a string the lexer duplicated: the
  address tells two identifier tokens of the same spelling apart.
-/
import Mathlib.Algebra.Ring.Rat
import Mathlib.Tactic.Common

namespace Cup

/-- Text, as the bytes before the terminating NUL. -/
abbrev Bytes := List UInt8

/-- The token and node kinds of `token.h`, in its order. -/
inductive CTType where
  | tEof | nEnd | tNl | nNewline | tCatnl | tReturn | tContinue | tBreak | tIf | tElse | tFor
  | tWhile | tIdentifier | tNumber | tDouble | tString | tMstring | nMstring | nRange | tAdd
  | tSub | tMul | tDiv | tMod | tAnd | tOr | tXor | tLess | tGreat | tNot | tEq | tCall | tCrb
  | tOcb | tCcb | tOsb | tCsb | nUnary | nBlock | nObject | nSubscript | nArray | tDot | nMember
  | tComma | tColon | tScolon | tImport | tExternal | tAsk | tAddress | nAddress | tAt | tThis
  | tVarg | nVarg | tAddeq | tSubeq | tMuleq | tDiveq | tModeq | tAndeq | tOreq | tXoreq
  | tLesseq | tGreateq | tNoteq | tEqeq
  deriving DecidableEq, Repr

/-- `struct Loc`: a token kind with its source position (`uint16_t col`, `uint32_t line`). -/
structure Loc where
  token : CTType
  col : Nat
  line : Nat
  deriving DecidableEq, Repr

/-- A pointer to a duplicated string: the allocation it points to and the bytes there. -/
structure CStr where
  addr : Nat
  bytes : Bytes
  deriving DecidableEq, Repr

/-- `union Node`. `dvalue` is the exact rational of the `double`, before rounding. -/
inductive Node where
  | tok (loc : Loc)
  | value (v : Nat)
  | dvalue (q : Rat)
  | svalue (s : CStr)
  deriving DecidableEq, Repr

/-- `struct Node2`: a token with its payload. -/
structure Node2 where
  loc : Loc
  payload : Node
  deriving DecidableEq, Repr

/-- `CUPState.nodes.token`. -/
def Node2.token (n : Node2) : CTType := n.loc.token

/-- Overwrite the token of a `Node2`, keeping its position. -/
def Node2.setToken (n : Node2) (t : CTType) : Node2 := { n with loc := { n.loc with token := t } }

/-- The nodes a `Node2` occupies in a node vector. -/
def Node2.nodes (n : Node2) : List Node := [.tok n.loc, n.payload]

/-- The token of a node; `none` for a payload node, whose low bits are no token. -/
def Node.token? : Node → Option CTType
  | .tok loc => some loc.token
  | _ => none

/-- The payload of a token as a `size_t`. -/
def Node.val : Node → Nat
  | .value v => v
  | _ => 0

@[simp] theorem Node2.token_setToken (n : Node2) (t : CTType) : (n.setToken t).token = t := rfl

@[simp] theorem Node2.payload_setToken (n : Node2) (t : CTType) :
    (n.setToken t).payload = n.payload := rfl

@[simp] theorem Node.token?_tok (loc : Loc) : (Node.tok loc).token? = some loc.token := rfl

end Cup
