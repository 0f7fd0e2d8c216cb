/-
  What an expression means, for the trees that `codegen_expr` (`src/codegen/x64codegen.c`) reads.

  Names stand for the addresses of their variables here. `World.eval` is the reference: operands
  from left to right, the address of a destination before the value, and in a call the values
  that are only loaded after those that are computed. `Reads` says which node streams are read as
  which expressions.
-/
import Cup.Lib.X64Pieces
import Cup.Codegen

namespace Cup

open Lib (Stop Run)
open Lib.X64

/-! ## Expressions -/

/-- The operators with two operands. -/
inductive BinOp where
  | add | sub | mul | less | lessEq | equal
  deriving DecidableEq, Repr

def BinOp.token : BinOp → CTType
  | add => .tAdd
  | sub => .tSub
  | mul => .tMul
  | less => .tLess
  | lessEq => .tLesseq
  | equal => .tEqeq

/-- Arithmetic of 64 bits; the comparisons are signed. -/
def BinOp.apply : BinOp → Word → Word → Word
  | add, a, b => a + b
  | sub, a, b => a - b
  | mul, a, b => a * b
  | less, a, b => if a.slt b then 1 else 0
  | lessEq, a, b => if a.sle b then 1 else 0
  | equal, a, b => if a = b then 1 else 0

/-- An expression: `const` is a number or the address of a string, `place` a variable. -/
inductive Expr where
  | const (w : Word)
  | place (addr : Word)
  | array (data : Word) (elems : List Expr)
  | index (base idx : Expr)
  | assign (dst val : Expr)
  | addAssign (dst val : Expr)
  | binary (op : BinOp) (l r : Expr)
  | call (callee : Expr) (args : List Expr)

/-- What is only loaded. -/
def Expr.isLeaf : Expr → Bool
  | const _ | place _ => true
  | _ => false

/-! ## Evaluation -/

/-- What an expression is evaluated in: the bytes that are the stack of the machine, which it must
    not touch, and the functions. A call may change the memory and a further state `σ`, and takes
    at most `room` words of the stack. -/
structure World (σ : Type) where
  stack : Stack
  room : Nat
  call : Word → List Word → Mem × σ → Option (Word × (Mem × σ))

/-- Code of the reference. -/
abbrev Meaning (σ : Type) := Run (Mem × σ)

namespace World

variable {σ : Type} (W : World σ)

mutual

/-- Words of the stack that the code of an expression may need. -/
def words : Expr → Nat
  | .const _ | .place _ => 0
  | .array _ es => wordsAll es
  | .index b i => max (words b) (words i)
  | .assign d v | .addAssign d v => max (words d) (words v)
  | .binary _ l r => max (words l) (words r)
  | .call f args => max (words f) (1 + max (wordsAll args) (1 + W.room))

/-- Those of a list, of which each may leave a word. -/
def wordsAll : List Expr → Nat
  | [] => 0
  | e :: es => max (words e) (1 + wordsAll es)

end

/-- A function is called. -/
def run (f : Word) (args : List Word) : Meaning σ Word := fun s =>
  match W.call f args s with
  | some (v, s') => .ok v s'
  | none => .stop (.fault "a call that does not return") s

/-- The value of a leaf. -/
def leafValue : Expr → Meaning σ Word
  | .const w => pure w
  | .place a => W.stack.read a
  | _ => Run.stop (.fault "no leaf")

/-- What is computed already, or else the value of the leaf. -/
def lastValue (e : Expr) : Option Word → Meaning σ Word
  | some v => pure v
  | none => W.leafValue e

/-- The arguments: those that are leaves are loaded. -/
def argValues : List Expr → List (Option Word) → Meaning σ (List Word)
  | e :: es, v :: vs => do
    let a ← W.lastValue e v
    let rest ← argValues es vs
    pure (a :: rest)
  | _, _ => pure []

mutual

/-- The value of an expression or, where it is not `want`ed, the address of its place. -/
def eval : Bool → Expr → Meaning σ Word
  | _, .const w => pure w
  | want, .place a => if want then W.stack.read a else pure a
  | _, .array data es => do
    storeAll data 0 es
    pure data
  | want, .index b i => do
    let p ← eval true b
    let k ← eval true i
    if want then W.stack.read (p + k * 8) else pure (p + k * 8)
  | _, .assign d v => do
    let a ← eval false d
    let x ← eval true v
    W.stack.write a x
    pure x
  | _, .addAssign d v => do
    let a ← eval false d
    let x ← eval true v
    let old ← W.stack.read a
    W.stack.write a (old + x)
    pure (old + x)
  | _, .binary op l r => do
    let a ← eval true l
    let b ← eval true r
    pure (op.apply a b)
  | _, .call f args => do
    let v ← if f.isLeaf then pure none else do
      let p ← eval true f
      pure (some p)
    let vs ← evalFirst args
    let xs ← W.argValues args vs
    let p ← W.lastValue f v
    W.run p xs

/-- The arguments that are no leaves. -/
def evalFirst : List Expr → Meaning σ (List (Option Word))
  | [] => pure []
  | e :: es => do
    let v ← if e.isLeaf then pure none else do
      let x ← eval true e
      pure (some x)
    let vs ← evalFirst es
    pure (v :: vs)

/-- The elements of an array literal from element `i` on. -/
def storeAll (data : Word) : Nat → List Expr → Meaning σ Unit
  | _, [] => pure ()
  | i, e :: es => do
    let x ← eval true e
    W.stack.write (data + BitVec.ofNat 64 (8 * i)) x
    storeAll data (i + 1) es

end

end World

/-! ## Node streams -/

/-- The nodes of an expression, for the generator with the tables of `s`. The offset of an element
    of an array literal fits in 32 bits; the resolver asserts that there are fewer than `UINT16_MAX`
    elements. -/
inductive Reads (L : Layout) (s : CUPState) : List Node → Expr → Prop where
  | number {loc : Loc} {n : Nat} : loc.token = .tNumber → n < 2 ^ 64 →
    Reads L s [.tok loc, .value n] (.const (BitVec.ofNat 64 n))
  | string {loc : Loc} {i : Nat} : loc.token = .tString ∨ loc.token = .tMstring →
    Reads L s [.tok loc, .value i] (.const (BitVec.ofNat 64 (L.dataPtr s i)))
  | var {loc : Loc} {name : CStr} {v : Nat} : loc.token = .tIdentifier →
    varLookup s name.bytes s.scope = .ok (some v) →
    Reads L s [.tok loc, .svalue name] (.place (BitVec.ofNat 64 (L.valuePtr v)))
  | this {loc : Loc} {v : Nat} : loc.token = .tThis → varLookup s [36] s.scope = .ok (some v) →
    Reads L s [.tok loc] (.place (BitVec.ofNat 64 (L.valuePtr v)))
  | address {loc : Loc} {a : Nat} : loc.token = .nAddress →
    Reads L s [.tok loc, .value a] (.place (BitVec.ofNat 64 a))
  | array {loc loc' : Loc} {i : Nat} {ps : List (List Node × Expr)} : loc.token = .nArray →
    loc'.token = .tComma → 8 * ps.length ≤ 2 ^ 31 → (∀ p ∈ ps, Reads L s p.1 p.2) →
    Reads L s (.tok loc :: .value i :: .tok loc' :: .value ps.length :: ps.flatMap Prod.fst)
      (.array (BitVec.ofNat 64 (L.dataPtr s i)) (ps.map Prod.snd))
  | index {loc : Loc} {l l' : List Node} {b i : Expr} : loc.token = .tOsb → Reads L s l b →
    Reads L s l' i → Reads L s (.tok loc :: (l ++ l')) (.index b i)
  | assign {loc : Loc} {l l' : List Node} {d v : Expr} : loc.token = .tEq → Reads L s l d →
    Reads L s l' v → Reads L s (.tok loc :: (l ++ l')) (.assign d v)
  | addAssign {loc : Loc} {l l' : List Node} {d v : Expr} : loc.token = .tAddeq → Reads L s l d →
    Reads L s l' v → Reads L s (.tok loc :: (l ++ l')) (.addAssign d v)
  | binary {loc : Loc} {op : BinOp} {l l' : List Node} {a b : Expr} : loc.token = op.token →
    Reads L s l a → Reads L s l' b → Reads L s (.tok loc :: (l ++ l')) (.binary op a b)
  | call {loc loc' : Loc} {l : List Node} {f : Expr} {ps : List (List Node × Expr)} :
    loc.token = .tCall → loc'.token = .tComma → Reads L s l f → (∀ p ∈ ps, Reads L s p.1 p.2) →
    Reads L s (.tok loc :: (l ++ .tok loc' :: .value ps.length :: ps.flatMap Prod.fst))
      (.call f (ps.map Prod.snd))

end Cup
