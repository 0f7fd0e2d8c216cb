/-
  Prefix streams of trees. `Term α` is a tree with a label of `α` and a list of children at each
  node; `flatten` writes the labels in prefix order.

  When the label fixes the number of children (`arity`), the weights `1 - arity` of a stream sum
  up to the number of trees in it (`weight_flatten`), so that a stream with an operand too few is
  no tree.
-/
import Mathlib.Algebra.Ring.Rat
import Mathlib.Tactic.Common

namespace Lib

/-- A tree with labels in `α`. -/
inductive Term (α : Type) where
  | node (a : α) (children : List (Term α))

namespace Term

variable {α : Type}

/-- The label at the root. -/
def label : Term α → α
  | .node a _ => a

def children : Term α → List (Term α)
  | .node _ cs => cs

mutual

/-- The labels in prefix order. -/
def flatten : Term α → List α
  | .node a cs => a :: flattenAll cs

def flattenAll : List (Term α) → List α
  | [] => []
  | c :: cs => flatten c ++ flattenAll cs

end

@[simp] theorem flatten_node (a : α) (cs : List (Term α)) :
    (Term.node a cs).flatten = a :: flattenAll cs := by
  rw [flatten]

@[simp] theorem flattenAll_nil : flattenAll ([] : List (Term α)) = [] := by
  rw [flattenAll]

@[simp] theorem flattenAll_cons (c : Term α) (cs : List (Term α)) :
    flattenAll (c :: cs) = c.flatten ++ flattenAll cs := by
  rw [flattenAll]

theorem flattenAll_append (cs ds : List (Term α)) :
    flattenAll (cs ++ ds) = flattenAll cs ++ flattenAll ds := by
  induction cs with
  | nil => simp
  | cons c cs ih => simp [ih]

/-- Induction over a tree, with the claim for every child. -/
theorem induct {P : Term α → Prop} (h : ∀ a cs, (∀ c ∈ cs, P c) → P (.node a cs)) (t : Term α) :
    P t :=
  @Term.rec α P (fun cs => ∀ c ∈ cs, P c) h (fun c hc => absurd hc (by simp))
    (fun c cs hc hcs c' hc' => by
      rcases List.mem_cons.mp hc' with rfl | hc'
      · exact hc
      · exact hcs c' hc') t

/-- `P` holds of the label and the children of every node. -/
inductive All (P : α → List (Term α) → Prop) : Term α → Prop where
  | node {a : α} {cs : List (Term α)} : P a cs → (∀ c ∈ cs, All P c) → All P (.node a cs)

theorem All.root {P : α → List (Term α) → Prop} {a : α} {cs : List (Term α)}
    (h : All P (.node a cs)) : P a cs := by
  cases h with
  | node hp _ => exact hp

theorem All.child {P : α → List (Term α) → Prop} {a : α} {cs : List (Term α)}
    (h : All P (.node a cs)) {c : Term α} (hc : c ∈ cs) : All P c := by
  cases h with
  | node _ h => exact h c hc

theorem All.mono {P Q : α → List (Term α) → Prop} (hpq : ∀ a cs, P a cs → Q a cs) {t : Term α}
    (h : All P t) : All Q t := by
  induction h with
  | node hp _ ih => exact .node (hpq _ _ hp) ih

/-- Every node has as many children as its label says. -/
abbrev Ranked (arity : α → Nat) : Term α → Prop := All fun a cs => cs.length = arity a

/-! ## Weights -/

section Arity

variable {arity : α → Nat}

/-- The sum of the weights `1 - arity` of a stream. -/
def weight (arity : α → Nat) (l : List α) : Int := (l.map fun a => 1 - (arity a : Int)).sum

@[simp] theorem weight_nil : weight arity [] = 0 := rfl

@[simp] theorem weight_cons (a : α) (l : List α) :
    weight arity (a :: l) = 1 - (arity a : Int) + weight arity l := by
  simp [weight]

@[simp] theorem weight_append (l m : List α) :
    weight arity (l ++ m) = weight arity l + weight arity m := by
  simp [weight]

theorem weight_flattenAll {cs : List (Term α)} (h : ∀ c ∈ cs, weight arity c.flatten = 1) :
    weight arity (flattenAll cs) = cs.length := by
  induction cs with
  | nil => rfl
  | cons c cs ih =>
    rw [flattenAll_cons, weight_append, h c List.mem_cons_self,
      ih fun c' hc' => h c' (List.mem_cons_of_mem _ hc'), List.length_cons]
    omega

/-- The stream of a tree has weight 1. -/
theorem weight_flatten {t : Term α} (ht : t.Ranked arity) : weight arity t.flatten = 1 := by
  induction t using Term.induct with
  | h a cs ih =>
    have hsum := weight_flattenAll fun c hc => ih c hc (ht.child hc)
    have hlen := ht.root
    rw [flatten_node, weight_cons, hsum, hlen]
    omega

end Arity

end Term

end Lib
