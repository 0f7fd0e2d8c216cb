/-
  The format of the node streams that the parser returns and the resolver and the generator
  read: a tree in prefix order, one token a label, some labels with a payload node.

  A `Cell` is a token with its payload; `encode` writes cells as nodes. `arity` is the number of
  operands a reader takes behind a cell, and `NodeOk` says what else the readers rely on, with
  the array storage that was reserved as a parameter.
-/
import Cup.Lib.Polish
import Cup.Token

namespace Cup

open Lib (Term)

/-- A token of a stream with its payload node, if it has one. -/
structure Cell where
  loc : Loc
  payload : Option Node
  deriving DecidableEq, Repr

def Cell.token (c : Cell) : CTType := c.loc.token

/-- The tokens followed by a payload node. -/
def wide : CTType → Bool
  | .tIdentifier | .tNumber | .tDouble | .tString | .nArray | .nBlock | .tComma => true
  | _ => false

/-- The nodes of a cell. -/
def Cell.nodes (c : Cell) : List Node := .tok c.loc :: c.payload.toList

def encode (cells : List Cell) : List Node := cells.flatMap Cell.nodes

/-- A cell has a payload exactly when its token has one; that of a block or list is a count. -/
def Cell.Ok (c : Cell) : Prop :=
  c.payload.isSome = wide c.token ∧
    ((c.token = .nBlock ∨ c.token = .tComma) → ∃ n, c.payload = some (.value n))

/-- The number of operands behind a cell. -/
def arity (c : Cell) : Nat :=
  match c.token with
  | .nUnary | .tNot | .tReturn | .nArray => 1
  | .tWhile | .tIf | .tElse | .tCall | .tOsb | .tDot | .tEq | .tAdd | .tAddeq | .tEqeq | .tLess
  | .tMul | .tLesseq | .tSub => 2
  | .tAt => 3
  | .nBlock | .tComma => (c.payload.map Node.val).getD 0
  | _ => 0

/-- The tokens that stand in a stream. -/
def inStream : CTType → Bool
  | .tIdentifier | .tNumber | .tDouble | .tString | .tThis | .tVarg | .tBreak | .tContinue
  | .nUnary | .tNot | .tReturn | .nArray | .tWhile | .tIf | .tElse | .tCall | .tOsb | .tDot | .tEq
  | .tAdd | .tAddeq | .tEqeq | .tLess | .tMul | .tLesseq | .tSub | .tAt | .nBlock | .tComma => true
  | _ => false

/-- A node of a well-formed tree. A call has a list of arguments; a definition has a name, a
    list of parameters and a body; an array literal has a list of as many elements as slots were
    reserved at its offset. `reserved` has the offsets and lengths of the storage. -/
structure NodeOk (reserved : List (Nat × Nat)) (c : Cell) (cs : List (Term Cell)) : Prop where
  ok : c.Ok
  known : inStream c.token
  operands : cs.length = arity c
  call : c.token = .tCall → ∃ f args, cs = [f, args] ∧ args.label.token = .tComma
  array : c.token = .nArray → ∃ list off, cs = [list] ∧ list.label.token = .tComma ∧
    c.payload = some (.value off) ∧ (off, list.children.length) ∈ reserved
  function : c.token = .tAt → ∃ name args body, cs = [name, args, body] ∧
    name.label.token = .tIdentifier ∧ args.label.token = .tComma

/-- The nodes are nothing, or exactly one well-formed tree. -/
def WellFormed (reserved : List (Nat × Nat)) (nodes : List Node) : Prop :=
  nodes = [] ∨ ∃ t : Term Cell, t.All (NodeOk reserved) ∧ nodes = encode t.flatten

/-! ## Encoding -/

@[simp] theorem encode_nil : encode [] = [] := rfl

@[simp] theorem encode_cons (c : Cell) (l : List Cell) : encode (c :: l) = c.nodes ++ encode l := by
  simp [encode]

@[simp] theorem encode_append (l m : List Cell) : encode (l ++ m) = encode l ++ encode m := by
  simp [encode]

theorem encode_eq_nil {l : List Cell} : encode l = [] ↔ l = [] := by
  cases l <;> simp [Cell.nodes]

/-- The nodes of well-formed cells are read in one way. -/
theorem encode_inj {l m : List Cell} (hl : ∀ c ∈ l, c.Ok) (hm : ∀ c ∈ m, c.Ok)
    (h : encode l = encode m) : l = m := by
  induction l generalizing m with
  | nil => exact (encode_eq_nil.mp h.symm).symm
  | cons c l ih =>
    cases m with
    | nil => exact absurd h (by simp [Cell.nodes])
    | cons d m =>
      obtain ⟨loc, p⟩ := c
      obtain ⟨loc', q⟩ := d
      simp only [encode_cons, Cell.nodes, List.cons_append, List.cons.injEq, Node.tok.injEq] at h
      obtain ⟨rfl, h⟩ := h
      have hp : p.isSome = wide loc.token := (hl _ List.mem_cons_self).1
      have hq : q.isSome = wide loc.token := (hm _ List.mem_cons_self).1
      have hrest : p = q ∧ encode l = encode m := by
        cases p with
        | none =>
          cases q with
          | none => exact ⟨rfl, h⟩
          | some y => rw [← hq] at hp; simp at hp
        | some x =>
          cases q with
          | none => rw [← hq] at hp; simp at hp
          | some y =>
            simp only [Option.toList, List.singleton_append, List.cons.injEq] at h
            exact ⟨congrArg some h.1, h.2⟩
      obtain ⟨rfl, htail⟩ := hrest
      rw [ih (fun c hc => hl c (List.mem_cons_of_mem _ hc))
        (fun c hc => hm c (List.mem_cons_of_mem _ hc)) htail]

/-! ## Trees -/

section Trees

variable {reserved : List (Nat × Nat)}

theorem ranked_of_nodeOk {t : Term Cell} (h : t.All (NodeOk reserved)) : t.Ranked arity :=
  h.mono fun _ _ hok => hok.operands

mutual

theorem ok_of_mem_flatten : ∀ {t : Term Cell}, t.All (NodeOk reserved) → ∀ c ∈ t.flatten, c.Ok
  | .node a cs, h, c, hc => by
    rw [Term.flatten_node] at hc
    rcases List.mem_cons.mp hc with rfl | hc
    · exact h.root.ok
    · exact ok_of_mem_flattenAll (fun _ hd => h.child hd) c hc

theorem ok_of_mem_flattenAll : ∀ {ts : List (Term Cell)}, (∀ t ∈ ts, t.All (NodeOk reserved)) →
    ∀ c ∈ Term.flattenAll ts, c.Ok
  | [], _, c, hc => by simp at hc
  | t :: ts, h, c, hc => by
    rw [Term.flattenAll_cons] at hc
    rcases List.mem_append.mp hc with hc | hc
    · exact ok_of_mem_flatten (h t List.mem_cons_self) c hc
    · exact ok_of_mem_flattenAll (fun _ hd => h _ (List.mem_cons_of_mem _ hd)) c hc

end

/-- More storage keeps a tree well formed. -/
theorem NodeOk.mono {reserved' : List (Nat × Nat)} (hsub : reserved ⊆ reserved') {c : Cell}
    {cs : List (Term Cell)} (h : NodeOk reserved c cs) : NodeOk reserved' c cs where
  ok := h.ok
  known := h.known
  operands := h.operands
  call := h.call
  function := h.function
  array hc := by
    obtain ⟨list, off, h₁, h₂, h₃, h₄⟩ := h.array hc
    exact ⟨list, off, h₁, h₂, h₃, hsub h₄⟩

theorem flatten_eq_label_cons (t : Term Cell) : ∃ rest, t.flatten = t.label :: rest := by
  cases t with
  | node a cs => exact ⟨_, Term.flatten_node a cs⟩

end Trees

/-! ## Bare array literals -/

/-- Somewhere an array node is followed by something else than a list. -/
def Bare (l : List Cell) : Prop :=
  ∃ l₁ a d l₂, l = l₁ ++ a :: d :: l₂ ∧ a.token = .nArray ∧ d.token ≠ .tComma

theorem Bare.append_right {l : List Cell} (h : Bare l) (m : List Cell) : Bare (l ++ m) := by
  obtain ⟨l₁, a, d, l₂, rfl, ha, hd⟩ := h
  exact ⟨l₁, a, d, l₂ ++ m, by simp, ha, hd⟩

theorem Bare.append_left {l : List Cell} (h : Bare l) (m : List Cell) : Bare (m ++ l) := by
  obtain ⟨l₁, a, d, l₂, rfl, ha, hd⟩ := h
  exact ⟨m ++ l₁, a, d, l₂, by simp, ha, hd⟩

theorem Bare.tail {c : Cell} {l : List Cell} (h : Bare (c :: l)) (hc : c.token ≠ .nArray) :
    Bare l := by
  obtain ⟨l₁, a, d, l₂, he, ha, hd⟩ := h
  cases l₁ with
  | nil =>
    obtain ⟨rfl, -⟩ := List.cons.inj he
    exact absurd ha hc
  | cons b l₁ => exact ⟨l₁, a, d, l₂, (List.cons.inj he).2, ha, hd⟩

theorem not_bare_cons {c : Cell} {l : List Cell} (h : ¬ Bare l)
    (hc : c.token = .nArray → ∀ d rest, l = d :: rest → d.token = .tComma) : ¬ Bare (c :: l) := by
  rintro ⟨l₁, a, d, l₂, he, ha, hd⟩
  cases l₁ with
  | nil =>
    obtain ⟨rfl, hl⟩ := List.cons.inj he
    exact hd (hc ha d l₂ hl)
  | cons b l₁ => exact h ⟨l₁, a, d, l₂, (List.cons.inj he).2, ha, hd⟩

/-- In a well-formed tree an array node is followed by its list. -/
theorem not_bare_flatten {reserved : List (Nat × Nat)} {t : Term Cell}
    (h : t.All (NodeOk reserved)) : ¬ Bare t.flatten := by
  have hgen : ∀ t : Term Cell, t.All (NodeOk reserved) → ∀ rest, ¬ Bare rest →
      ¬ Bare (t.flatten ++ rest) := by
    intro t
    induction t using Term.induct with
    | h a cs ih =>
      intro h rest hrest
      have hcs : ∀ ts : List (Term Cell), (∀ t ∈ ts, t ∈ cs) →
          ¬ Bare (Term.flattenAll ts ++ rest) := by
        intro ts
        induction ts with
        | nil => exact fun _ => by simpa using hrest
        | cons t ts ihts =>
          intro hsub
          rw [Term.flattenAll_cons, List.append_assoc]
          have ht := hsub t List.mem_cons_self
          exact ih t ht (h.child ht) _ (ihts fun t' ht' => hsub t' (List.mem_cons_of_mem _ ht'))
      rw [Term.flatten_node, List.cons_append]
      refine not_bare_cons (hcs cs fun _ ht => ht) fun ha d l hl => ?_
      obtain ⟨list, off, rfl, hlabel, -, -⟩ := h.root.array ha
      obtain ⟨l', hl'⟩ := flatten_eq_label_cons list
      rw [Term.flattenAll_cons, Term.flattenAll_nil, List.append_nil, hl', List.cons_append] at hl
      rw [← (List.cons.inj hl).1]
      exact hlabel
  have := hgen t h [] (by rintro ⟨l₁, a, d, l₂, he, -, -⟩; simp at he)
  simpa using this

end Cup
