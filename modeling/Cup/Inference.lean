/-
  What a run of `inferTypes` can do, said once for the results about the resolver.

  `Frame`: a preorder on the states that the single operations of the resolver stay in; every
  run that returns stays in it (`inferTypes_along`), failed ones too. `Infers`: one rule for each
  construct that can be accepted, with the states in front of and behind its parts; a run that
  returns something else than `CV_ERROR`, without an error that nothing read, is a derivation
  (`inferTypes_derives`).
-/
import Cup.Resolver

namespace Cup

open Lib (Stop Run)
open Lib.Run (Along)

/-! ## Frames -/

/-- A type may be set where it is the one that is set already. -/
def Settable (s : CUPState) (v : Nat) (type : TRef) : Prop :=
  ∀ old, s.vars.items[v]?.bind (·.typee) = some old → old = type

/-- A preorder that the operations of the resolver stay in. -/
structure Frame (H : ResHost) (R : ResState → ResState → Prop) : Prop where
  refl : ∀ s, R s s
  trans : ∀ {s t u}, R s t → R t u → R s u
  nodes : ∀ s new range sides, R s { s with new := new, range := range, sides := sides }
  log : ∀ s e, R s { s with log := s.log ++ [e] }
  scope : ∀ s scope trace, R s { s with cup := { s.cup with scope := scope, trace := trace } }
  type : ∀ {s kind size data t cup}, cupType H.mem kind size data s.cup = .ok t cup →
    R s { s with cup := cup }
  gen : ∀ {s f op value r cup}, H.metaGen f op value s.cup = .ok r cup → R s { s with cup := cup }
  set : ∀ {s v t}, Settable s.cup v t → ∀ u, setType v t s = .ok () u → R s u

section Along

variable {H : ResHost} {R : ResState → ResState → Prop} {α β : Type}

/-- `target->typee`, and nothing else. -/
theorem varType_ok {v : Nat} {s s' : ResState} {type : Option TRef}
    (h : varType v s = .ok type s') :
    s' = s ∧ ∃ var, s.cup.vars.items[v]? = some var ∧ var.typee = type := by
  unfold varType at h
  rw [Run.get_bind] at h
  obtain ⟨var, t, hread, h⟩ := Run.bind_eq_ok.mp h
  obtain ⟨hvar, rfl⟩ := Run.lift_eq_ok.mp hread
  cases h
  exact ⟨rfl, var, CVec.at_ok hvar, rfl⟩

namespace Frame

variable (F : Frame H R)

include F

theorem pure (a : α) : Along R (pure a : Inf α) := Run.along_pure F.refl a

theorem get : Along R (Run.get : Inf ResState) := Run.along_get F.refl

theorem lift (x : Except Stop α) : Along R (Run.lift x : Inf α) := Run.along_lift F.refl x

theorem bind {x : Inf α} {f : α → Inf β} (hx : Along R x) (hf : ∀ a, Along R (f a)) :
    Along R (x >>= f) :=
  Run.along_bind (R := R) (fun _ _ _ => F.trans) hx hf

theorem pushNew (nodes : List Node) : Along R (pushNew nodes) :=
  fun s => F.nodes s (s.new ++ nodes) s.range s.sides

theorem setNew (new : List Node) : Along R (Run.modify fun s => { s with new := new } : Inf Unit) :=
  fun s => F.nodes s new s.range s.sides

theorem logEvent (e : ResEvent) : Along R (logEvent e) := fun s => F.log s e

theorem nextNode : Along R nextNode := by
  intro s
  unfold Cup.nextNode
  rw [Run.sat_bind, Run.sat_get]
  cases s.range with
  | nil => trivial
  | cons n rest => exact F.nodes s s.new rest s.sides

theorem nextValue : Along R nextValue := by
  refine F.bind F.nextNode fun n => ?_
  cases n with
  | value v => exact F.pure v
  | _ => exact Run.along_stop _

theorem nextString : Along R nextString := by
  refine F.bind F.nextNode fun n => ?_
  cases n with
  | svalue str => exact F.pure str
  | _ => exact Run.along_stop _

theorem nextScope : Along R nextScope := fun s => F.scope s (s.cup.scope + 1) s.cup.trace

theorem liftType (kind : CupKind) (size : Nat) (data : TData) :
    Along R (liftComp (cupType H.mem kind size data)) := by
  intro s
  unfold Run.Sat liftComp
  cases h : cupType H.mem kind size data s.cup with
  | ok t cup => exact F.type h
  | stop e cup => trivial

theorem liftGen (f value : Nat) (op : MetaOp) : Along R (liftComp (H.metaGen f op value)) := by
  intro s
  unfold Run.Sat liftComp
  cases h : H.metaGen f op value s.cup with
  | ok r cup => exact F.gen h
  | stop e cup => trivial

/-! ### Parts -/

theorem varType (v : Nat) : Along R (varType v) :=
  F.bind F.get fun _ => F.bind (F.lift _) fun _ => F.pure _

theorem metaOf (v : Nat) : Along R (metaOf v) := by
  refine F.bind F.get fun s => F.bind (F.lift _) fun var => ?_
  split <;> exact F.pure _

theorem metaApply (f value : Nat) (op : MetaOp) : Along R (metaApply H f value op) := by
  refine F.bind (F.liftGen f value op) fun r => ?_
  obtain ⟨r, v⟩ := r
  cases r <;> exact F.pure _

theorem arrayIndex (type : Option TRef) (base : Nat) (right : CUPValue) :
    Along R (arrayIndex type base right) := by
  refine F.bind F.get fun s => ?_
  split
  · split
    · repeat' split
      all_goals exact F.pure _
    · exact F.pure _
  · exact F.pure _

theorem indexInfer (left : CUPValue) (type : Option TRef) (base : Nat) (right : CUPValue) :
    Along R (indexInfer left type base right) := by
  refine F.bind (F.arrayIndex _ _ _) fun r => ?_
  dsimp only
  split
  · exact F.bind (F.logEvent _) fun _ => F.pure _
  · exact F.pure _

theorem itemOf (item : CUPValue) : Along R (itemOf H item) := by
  cases item with
  | value type v =>
    cases type with
    | none => exact Run.along_stop _
    | some t => exact F.pure _
  | «variable» var name =>
    cases var with
    | none => exact Run.along_stop _
    | some v => exact F.bind F.get fun _ => F.bind (F.lift _) fun _ => F.pure _
  | address type p =>
    cases type with
    | none => exact Run.along_stop _
    | some t => exact F.bind F.get fun _ => F.pure _
  | _ => exact Run.along_stop _

/-! ### Assignments -/

theorem assignType (type : Option TRef) (left right : CUPValue) :
    Along R (assignType type left right) := by
  cases left with
  | «variable» var name =>
    cases var with
    | none => exact Run.along_stop _
    | some target =>
      intro s
      have hvar : (Cup.varType target).Sat s
          (fun old s' => s' = s ∧ ∃ var, s.cup.vars.items[target]? = some var ∧ var.typee = old)
          fun _ _ => True := Run.sat_iff_ok.mpr fun _ _ => varType_ok
      unfold Cup.assignType
      rw [Run.sat_bind]
      refine Run.sat_mono hvar ?_ fun _ _ h => h
      rintro old _ ⟨rfl, var, hvar, rfl⟩
      split
      · exact F.refl _
      · rename_i hne
        cases type with
        | none => exact F.refl _
        | some t =>
          refine F.set (v := target) (t := t) (fun old' hold' => ?_) _ rfl
          have hold' : var.typee = some old' := by
            rw [hvar] at hold'
            exact hold'
          rw [hold'] at hne
          by_contra hdiff
          exact hne ⟨rfl, rfl, fun h => hdiff (Option.some.inj h)⟩
  | address old p =>
    dsimp only [Cup.assignType]
    split
    · exact F.pure _
    · exact F.pure _
  | _ => exact Run.along_stop _

theorem eqChecks (left right : CUPValue) : Along R (eqChecks left right) := by
  cases right with
  | any type => exact F.assignType type left _
  | value type v => exact F.assignType type left _
  | address type p => exact F.assignType type left _
  | «variable» var name =>
    cases var with
    | none => exact Run.along_stop _
    | some v => exact F.bind (F.varType v) fun _ => F.assignType _ left _
  | list types values => exact F.pure _
  | _ => exact Run.along_stop _

/-! ### Trees -/

variable {rec : Infer}

theorem inferInto (hrec : ∀ rtype array, Along R (rec rtype array)) : Along R (inferInto rec) :=
  F.bind F.get fun s => F.bind (F.setNew []) fun _ => F.bind (hrec _ _) fun _ =>
    F.bind F.get fun _ => F.bind (F.setNew s.new) fun _ => F.pure _

variable (hrec : ∀ rtype array, Along R (rec rtype array))

include hrec

theorem eqInfer : Along R (eqInfer rec) := by
  refine F.bind F.get fun s₀ => F.bind (hrec _ _) fun right => F.bind F.get fun s₁ => ?_
  refine F.bind (hrec _ _) fun left => F.bind (fun s => ?_) fun _ => F.eqChecks left right
  exact F.trans (F.log s _) (F.nodes _ s.new s.range _)

theorem dotInfer (loc : Loc) : Along R (dotInfer H rec loc) := by
  refine F.bind (F.inferInto hrec) fun r => ?_
  obtain ⟨written, left⟩ := r
  refine F.bind F.nextNode fun n => ?_
  cases n with
  | tok name =>
    dsimp only
    split
    · exact F.pure _
    · refine F.bind F.nextString fun str => ?_
      cases left with
      | «variable» var name' =>
        cases var with
        | none => exact F.pure _
        | some v =>
          refine F.bind (F.metaOf v) fun m => ?_
          cases m with
          | none => exact F.pure _
          | some fv =>
            refine F.bind (F.metaApply _ _ _) fun r => ?_
            cases r with
            | value type n => exact F.bind (F.pushNew _) fun _ => F.pure _
            | address type p => exact F.bind (F.pushNew _) fun _ => F.pure _
            | _ => exact F.pure _
      | function t v => exact Run.along_stop _
      | _ => exact F.pure _
  | _ => exact Run.along_stop _

omit hrec in
theorem callResult (loc : Loc) (args : List Node) (r : CUPValue) :
    Along R (callResult loc args r) := by
  cases r with
  | function t value =>
    exact F.bind (F.pushNew _) fun _ => F.bind (F.pushNew _) fun _ => F.bind (F.pushNew _) fun _ =>
      F.pure _
  | value t n => exact F.bind (F.pushNew _) fun _ => F.pure _
  | _ => exact Run.along_stop _

theorem callInfer (loc : Loc) : Along R (callInfer H rec loc) := by
  refine F.bind (F.inferInto hrec) fun l => ?_
  obtain ⟨-, left⟩ := l
  refine F.bind (F.inferInto hrec) fun r => ?_
  obtain ⟨args, right⟩ := r
  cases left with
  | list types values => exact F.pure _
  | value t v => exact F.pure _
  | «variable» var name =>
    cases var with
    | none => exact Run.along_stop _
    | some v =>
      refine F.bind (F.varType v) fun t => ?_
      cases t with
      | none => exact Run.along_stop _
      | some t =>
        cases right with
        | list types values =>
          refine F.bind F.get fun s => ?_
          split
          · exact Run.along_stop _
          · refine F.bind F.get fun s => F.bind (F.lift _) fun var => ?_
            refine F.bind (F.liftGen _ _ _) fun r => ?_
            obtain ⟨r, value⟩ := r
            cases r with
            | error => exact F.pure _
            | «continue» => exact Run.along_stop _
            | done => exact F.callResult loc args value
          · exact F.pure _
        | _ => exact F.pure _
  | _ => exact Run.along_stop _

theorem osbInfer (loc : Loc) (mark : Nat) : Along R (osbInfer H rec loc mark) := by
  have hreplace : ∀ (s : ResState) (token : CTType) (n : Nat) (r : CUPValue),
      (do
        Run.modify fun s => { s with new := s.new.take mark }
        pushPair loc token n
        Pure.pure r : Inf CUPValue).Sat s (fun _ s' => R s s') fun _ _ => True :=
    fun s token n r => F.nodes s _ s.range s.sides
  refine F.bind (hrec _ _) fun left => F.bind (hrec _ _) fun right => ?_
  cases left with
  | «variable» var name =>
    cases var with
    | none => exact F.pure _
    | some v =>
      refine F.bind (F.metaOf v) fun m => ?_
      cases m with
      | none => exact F.bind F.get fun s => F.bind (F.lift _) fun var => F.indexInfer _ _ _ _
      | some fv =>
        refine F.bind (F.logEvent _) fun _ => F.bind (F.metaApply _ _ _) fun r => ?_
        cases r with
        | address type p => exact fun s => hreplace s _ _ _
        | value type n => exact fun s => hreplace s _ _ _
        | _ => exact F.pure _
  | address type pvalue =>
    dsimp only
    split
    · exact F.pure _
    · exact F.bind F.get fun s => F.indexInfer _ _ _ _
  | function t v => exact Run.along_stop _
  | _ => exact F.pure _

theorem defForLoop (rtype : Bool) (k : Nat) : Along R (defForLoop H rec rtype k) := by
  induction k with
  | zero => exact F.pure _
  | succ k ih =>
    refine F.bind (hrec _ _) fun item => ?_
    split
    · exact F.pure _
    · refine F.bind (F.itemOf item) fun entry => F.bind ih fun rest => ?_
      cases rest with
      | none => exact F.pure _
      | some rest => exact F.pure _

theorem defFor (rtype : Bool) (count : Nat) (fn : List (Option TRef × Nat) → CUPValue) :
    Along R (defFor H rec rtype count fn) := by
  refine F.bind (F.defForLoop hrec rtype count) fun items => ?_
  cases items with
  | none => exact F.pure _
  | some items => exact F.pure _

theorem arrayInfer (loc : Loc) : Along R (arrayInfer H rec loc) := by
  refine F.bind F.nextValue fun i => F.bind F.get fun s => F.bind (F.pushNew _) fun _ => ?_
  refine F.bind (hrec _ _) fun r => ?_
  cases r with
  | list types values =>
    dsimp only
    split
    · exact Run.along_stop _
    · exact F.bind (F.liftType _ _ _) fun t => F.bind (F.logEvent _) fun _ => F.pure _
  | _ => exact Run.along_stop _

omit hrec in
theorem stringInfer (loc : Loc) : Along R (stringInfer H loc) := by
  refine F.bind F.nextValue fun i => F.bind F.get fun s => F.bind (F.pushNew _) fun _ => ?_
  cases getData s.cup i with
  | none => exact Run.along_stop _
  | some off =>
    dsimp only
    repeat' split
    · exact Run.along_stop _
    · exact Run.along_stop _
    · exact F.bind (F.liftType _ _ _) fun t => F.bind (F.logEvent _) fun _ => F.pure _

omit hrec in
theorem variableInfer (loc : Loc) : Along R (variableInfer loc) := by
  refine F.bind F.nextString fun name => F.bind F.get fun s => F.bind (F.lift _) fun v => ?_
  refine F.bind (fun t => F.scope t t.cup.scope _) fun _ => ?_
  exact F.bind (F.pushNew _) fun _ => F.pure _

omit hrec in
theorem thisInfer (loc : Loc) : Along R (thisInfer loc) := by
  refine F.bind F.get fun s => F.bind (F.lift _) fun v => ?_
  cases v with
  | none => exact F.pure _
  | some v => exact F.bind (F.pushNew _) fun _ => F.pure _

theorem atInfer : Along R (atInfer rec) :=
  F.bind (hrec _ _) fun _ => F.bind F.nextScope fun _ => F.bind (hrec _ _) fun _ =>
    F.bind (F.logEvent _) fun _ => F.bind (hrec _ _) fun _ => F.bind (F.logEvent _) fun _ =>
      F.pure _

theorem returnInfer (rtype : Bool) : Along R (returnInfer rec rtype) := by
  refine F.bind (hrec _ _) fun r => ?_
  cases r with
  | value t v =>
    dsimp only
    repeat' split
    · exact Run.along_stop _
    · exact Run.along_stop _
    · exact F.pure _
  | _ => exact Run.along_stop _

end Frame

/-- A run that returns stays in the frame. -/
theorem inferTypes_along (F : Frame H R) (n : Nat) (rtype array : Bool) :
    Along R (inferTypes H n rtype array) := by
  induction n generalizing rtype array with
  | zero => exact Run.along_stop _
  | succ n ih =>
    refine F.bind F.nextNode fun node => ?_
    cases node with
    | tok loc =>
      dsimp only
      split
      · exact F.bind F.nextScope fun _ => F.bind F.nextValue fun count =>
          F.bind (F.pushNew _) fun _ => F.defFor ih _ _ _
      · exact F.bind F.nextValue fun count => F.bind (F.pushNew _) fun _ => F.defFor ih _ _ _
      · exact F.arrayInfer ih loc
      · exact F.bind F.nextValue fun value => F.bind (F.pushNew _) fun _ => F.pure _
      · exact F.stringInfer loc
      · exact F.stringInfer loc
      · exact F.thisInfer loc
      · exact F.variableInfer loc
      · exact F.dotInfer ih loc
      · exact F.bind (F.pushNew _) fun _ => F.eqInfer ih
      · exact F.callInfer ih loc
      · exact F.bind F.get fun _ => F.bind (F.pushNew _) fun _ => F.osbInfer ih loc _
      · exact F.bind (F.pushNew _) fun _ => F.atInfer ih
      · exact F.bind (F.pushNew _) fun _ => F.returnInfer ih rtype
      · exact F.pure _
    | _ => exact Run.along_stop _

end Along

/-- The log only grows. -/
theorem logFrame (H : ResHost) : Frame H fun s s' => s.log <+: s'.log where
  refl s := List.prefix_refl _
  trans h h' := h.trans h'
  nodes _ _ _ _ := List.prefix_refl _
  log _ _ := List.prefix_append _ _
  scope _ _ _ := List.prefix_refl _
  type _ := List.prefix_refl _
  gen _ := List.prefix_refl _
  set _ u hu := by
    cases hu
    exact List.prefix_refl _

/-- Every result that nothing reads is something else than an error. -/
def NoLostError (log : List ResEvent) : Prop := .dropped .error ∉ log

theorem NoLostError.of_prefix {log log' : List ResEvent} (h : NoLostError log')
    (hp : log <+: log') : NoLostError log :=
  fun hmem => h (hp.subset hmem)

/-! ## Accepted trees -/

/-- The node that stands for a constant result: its token and its payload. -/
def CUPValue.constant : CUPValue → Option (CTType × Nat)
  | .value _ n => some (.tNumber, n)
  | .address _ p => some (.nAddress, p)
  | _ => none

/-- What stands for a call: the call of an address with the arguments, or a constant. -/
def CUPValue.called (loc : Loc) (args : List Node) : CUPValue → Option (List Node)
  | .function _ n =>
    some (.tok loc :: .tok { loc with token := .tNumber } :: .value n :: args)
  | .value _ n => some [.tok { loc with token := .tNumber }, .value n]
  | _ => none

/-- The result of a tree, or the entries of a list of trees. -/
inductive Inferred where
  | value (v : CUPValue)
  | items (entries : List (Option TRef × Nat))

/-- Behind the nodes `nodes`, which are copied. -/
def ResState.copied (s : ResState) (nodes rest : List Node) : ResState :=
  { s with range := rest, new := s.new ++ nodes }

/-- In the next scope. -/
def ResState.inner (s : ResState) : ResState :=
  { s with cup := { s.cup with scope := s.cup.scope + 1 } }

/-- With one more event. -/
def ResState.logged (s : ResState) (e : ResEvent) : ResState := { s with log := s.log ++ [e] }

/-- One rule for each construct that is accepted. -/
inductive Infers (H : ResHost) : ResState → Inferred → ResState → Prop where
  | number {s : ResState} {loc : Loc} {n : Nat} {rest : List Node}
    (hs : s.range = .tok loc :: .value n :: rest) (ht : loc.token = .tNumber) :
    Infers H s (.value (.value (some (.base .typeInt)) n))
      (s.copied [.tok loc, .value n] rest)
  | string {s : ResState} {loc : Loc} {i off : Nat} {rest : List Node} {bytes : Bytes} {t : TRef}
    {cup : CUPState} (hs : s.range = .tok loc :: .value i :: rest)
    (ht : loc.token = .tString ∨ loc.token = .tMstring) (hoff : getData s.cup i = some off)
    (hb : bytes = (s.cup.data.drop off).takeWhile (· ≠ 0)) (hlt : bytes.length + 1 < uint16Max)
    (htype : cupType H.mem .typeArray (bytes.length + 1) (.type (.base .typeUint8)) s.cup =
      .ok t cup) :
    Infers H s (.value (.value (some t) (H.layout.data + off)))
      (({ s.copied [.tok loc, .value i] rest with cup := cup }).logged
        (.literal ⟨.string, t, off, bytes.length + 1⟩ (H.layout.data + off)))
  | array {s s₁ : ResState} {loc : Loc} {i : Nat} {rest : List Node} {types : List (Option TRef)}
    {values : List Nat} {data : TData} {t : TRef} {cup : CUPState}
    (hs : s.range = .tok loc :: .value i :: rest) (ht : loc.token = .nArray)
    (hlist : Infers H (s.copied [.tok loc, .value i] rest) (.value (.list types values)) s₁)
    (hlt : types.length < uint16Max)
    (htype : cupType H.mem .typeArray types.length data s₁.cup = .ok t cup) :
    Infers H s (.value (.value (some t) (H.layout.dataPtr s.cup i)))
      (({ s₁ with cup := cup }).logged
        (.literal ⟨.array, t, i, types.length⟩ (H.layout.dataPtr s.cup i)))
  | this {s : ResState} {loc : Loc} {rest : List Node} {v : Nat}
    (hs : s.range = .tok loc :: rest) (ht : loc.token = .tThis)
    (hv : varLookup s.cup [36] s.cup.scope = .ok (some v)) :
    Infers H s (.value (.variable (some v) [36])) (s.copied [.tok loc] rest)
  | identifier {s : ResState} {loc : Loc} {name : CStr} {rest : List Node} {v : Option Nat}
    (hs : s.range = .tok loc :: .svalue name :: rest) (ht : loc.token = .tIdentifier)
    (hv : varLookup s.cup name.bytes s.cup.scope = .ok v) :
    Infers H s (.value (.variable v name.bytes))
      { s.copied [.tok loc, .svalue name] rest with
        cup := { s.cup with trace := s.cup.trace ++ [.entry name s.cup.scope v] } }
  | block {s s₁ : ResState} {loc : Loc} {rest : List Node} {entries : List (Option TRef × Nat)}
    (hs : s.range = .tok loc :: .value entries.length :: rest) (ht : loc.token = .nBlock)
    (hitems : Infers H (s.inner.copied [.tok loc, .value entries.length] rest)
      (.items entries) s₁) :
    Infers H s (.value (.value (some (.base .typeVoid)) 0)) s₁
  | comma {s s₁ : ResState} {loc : Loc} {rest : List Node} {entries : List (Option TRef × Nat)}
    (hs : s.range = .tok loc :: .value entries.length :: rest) (ht : loc.token = .tComma)
    (hitems : Infers H (s.copied [.tok loc, .value entries.length] rest) (.items entries) s₁) :
    Infers H s (.value (fnComma entries)) s₁
  | nil {s : ResState} : Infers H s (.items []) s
  | cons {s s₁ s₂ : ResState} {item : CUPValue} {entry : Option TRef × Nat}
    {entries : List (Option TRef × Nat)} (hitem : Infers H s (.value item) s₁)
    (hentry : itemOf H item s₁ = .ok entry s₁) (hrest : Infers H s₁ (.items entries) s₂) :
    Infers H s (.items (entry :: entries)) s₂
  | eq {s s₁ s₂ s₃ s₄ : ResState} {loc : Loc} {rest : List Node} {right left v : CUPValue}
    (hs : s.range = .tok loc :: rest) (ht : loc.token = .tEq)
    (hright : Infers H (s.copied [.tok loc] rest) (.value right) s₁)
    (hleft : Infers H s₁ (.value left) s₂)
    (hlog : s₃ = ({ s₂ with sides := s₃.sides }).logged
      (.assigned left right (right.typeIn s₂.cup)))
    (hchecks : eqChecks left right s₃ = .ok v s₄) (hv : v ≠ .error) :
    Infers H s (.value v) s₄
  | member {s s₁ : ResState} {loc name : Loc} {str : CStr} {rest rest' : List Node}
    {left r : CUPValue} {f value : Nat} {op : MetaOp} {cup : CUPState} {token : CTType} {n : Nat}
    (hs : s.range = .tok loc :: rest) (ht : loc.token = .tDot)
    (hleft : Infers H { s with range := rest, new := [] } (.value left) s₁)
    (hname : s₁.range = .tok name :: .svalue str :: rest') (hid : name.token = .tIdentifier)
    (hgen : H.metaGen f op value s₁.cup = .ok (.done, r) cup)
    (hr : r.constant = some (token, n)) :
    Infers H s (.value r)
      { s₁ with
        cup := cup
        range := rest'
        new := s.new ++ [.tok { loc with token := token }, .value n] }
  | call {s s₁ s₂ : ResState} {loc : Loc} {rest nodes : List Node} {left r : CUPValue}
    {types : List (Option TRef)} {values : List Nat} {f value : Nat} {op : MetaOp}
    {cup : CUPState} (hs : s.range = .tok loc :: rest) (ht : loc.token = .tCall)
    (hleft : Infers H { s with range := rest, new := [] } (.value left) s₁)
    (hargs : Infers H { s₁ with new := [] } (.value (.list types values)) s₂)
    (hgen : H.metaGen f op value s₂.cup = .ok (.done, r) cup)
    (hr : r.called loc s₂.new = some nodes) :
    Infers H s (.value r) { s₂ with cup := cup, new := s.new ++ nodes }
  | index {s s₁ s₂ : ResState} {loc : Loc} {rest : List Node} {left : CUPValue}
    {itype : Option TRef} {i base p : Nat} {element : Option TRef}
    (hs : s.range = .tok loc :: rest) (ht : loc.token = .tOsb)
    (hleft : Infers H (s.copied [.tok loc] rest) (.value left) s₁)
    (hright : Infers H s₁ (.value (.value itype i)) s₂)
    (hindex : arrayIndex (left.typeIn s₂.cup) base (.value itype i) s₂ =
      .ok (.address element p) s₂) :
    Infers H s (.value (.address element p)) (s₂.logged (.indexed left base i p))
  | metaIndex {s s₁ s₂ : ResState} {loc : Loc} {rest : List Node} {left right r : CUPValue}
    {f value : Nat} {op : MetaOp} {cup : CUPState} {token : CTType} {n : Nat}
    (hs : s.range = .tok loc :: rest) (ht : loc.token = .tOsb)
    (hleft : Infers H (s.copied [.tok loc] rest) (.value left) s₁)
    (hright : Infers H s₁ (.value right) s₂)
    (hgen : H.metaGen f op value s₂.cup = .ok (.done, r) cup)
    (hr : r.constant = some (token, n)) :
    Infers H s (.value r)
      (({ s₂ with
        cup := cup
        new := s₂.new.take s.new.length ++
          [Node.tok { loc with token := token }, Node.value n] }).logged
        (.dropped right))
  | define {s s₁ s₂ s₃ : ResState} {loc : Loc} {rest : List Node} {left params body : CUPValue}
    (hs : s.range = .tok loc :: rest) (ht : loc.token = .tAt)
    (hleft : Infers H (s.copied [.tok loc] rest) (.value left) s₁)
    (hparams : Infers H s₁.inner (.value params) s₂)
    (hbody : Infers H (s₂.logged (.dropped params)) (.value body) s₃) :
    Infers H s (.value left) (s₃.logged (.dropped body))
  | ret {s s₁ : ResState} {loc : Loc} {rest : List Node} {t : Option TRef} {v : Nat}
    (hs : s.range = .tok loc :: rest) (ht : loc.token = .tReturn)
    (hleft : Infers H (s.copied [.tok loc] rest) (.value (.value t v)) s₁) :
    Infers H s (.value (.any (some (.base .typeVoid)))) s₁

/-! ## Accepted runs -/

section Derives

variable {H : ResHost} {rec : Infer}

/-- Code that infers trees as `inferTypes` does. -/
structure Derives (H : ResHost) (rec : Infer) : Prop where
  log : ∀ rtype array, Along (fun s s' => s.log <+: s'.log) (rec rtype array)
  infers : ∀ {rtype array s v s'}, rec rtype array s = .ok v s' → NoLostError s'.log →
    v ≠ .error → Infers H s (.value v) s'

theorem nextNode_eq_ok {s s' : ResState} {n : Node} (h : nextNode s = .ok n s') :
    ∃ rest, s.range = n :: rest ∧ s' = { s with range := rest } := by
  unfold nextNode at h
  rw [Run.get_bind] at h
  cases hr : s.range with
  | nil =>
    rw [hr] at h
    cases h
  | cons n' rest =>
    rw [hr] at h
    cases h
    exact ⟨rest, rfl, rfl⟩

theorem nextValue_eq_ok {s s' : ResState} {v : Nat} (h : nextValue s = .ok v s') :
    ∃ rest, s.range = .value v :: rest ∧ s' = { s with range := rest } := by
  obtain ⟨n, s₁, hn, h⟩ := Run.bind_eq_ok.mp h
  cases n with
  | value w =>
    cases h
    exact nextNode_eq_ok hn
  | _ => cases h

theorem nextString_eq_ok {s s' : ResState} {str : CStr} (h : nextString s = .ok str s') :
    ∃ rest, s.range = .svalue str :: rest ∧ s' = { s with range := rest } := by
  obtain ⟨n, s₁, hn, h⟩ := Run.bind_eq_ok.mp h
  cases n with
  | svalue w =>
    cases h
    exact nextNode_eq_ok hn
  | _ => cases h

/-- The result of code that leaves the state alone. -/
theorem state_of_keeps {α : Type} {x : Inf α} (hx : x.Keeps id fun _ => True) {s s' : ResState}
    {a : α} (h : x s = .ok a s') : s' = s :=
  hx.of_ok h

theorem metaOf_keeps (v : Nat) : (metaOf v).Keeps id fun _ => True := by
  refine Run.keeps_bind Run.keeps_get fun s => ?_
  refine Run.keeps_bind (Run.keeps_lift fun _ _ => trivial) fun var => ?_
  split <;> exact Run.keeps_pure _

theorem itemOf_keeps (item : CUPValue) : (itemOf H item).Keeps id fun _ => True := by
  cases item with
  | value type v =>
    cases type with
    | none => exact Run.keeps_stop trivial
    | some t => exact Run.keeps_pure _
  | «variable» var name =>
    cases var with
    | none => exact Run.keeps_stop trivial
    | some v =>
      exact Run.keeps_bind Run.keeps_get fun _ =>
        Run.keeps_bind (Run.keeps_lift fun _ _ => trivial) fun _ => Run.keeps_pure _
  | address type p =>
    cases type with
    | none => exact Run.keeps_stop trivial
    | some t => exact Run.keeps_bind Run.keeps_get fun _ => Run.keeps_pure _
  | _ => exact Run.keeps_stop trivial

theorem liftComp_eq_ok {α : Type} {x : Comp α} {s s' : ResState} {a : α}
    (h : liftComp x s = .ok a s') : ∃ cup, x s.cup = .ok a cup ∧ s' = { s with cup := cup } := by
  unfold liftComp at h
  cases hx : x s.cup with
  | ok b cup =>
    rw [hx] at h
    cases h
    exact ⟨cup, rfl, rfl⟩
  | stop e cup =>
    rw [hx] at h
    cases h

/-- A callback whose result is accepted is done. -/
theorem metaApply_eq_ok {f value : Nat} {op : MetaOp} {s s' : ResState} {r : CUPValue}
    (h : metaApply H f value op s = .ok r s') (hr : r ≠ .error) :
    ∃ cup, H.metaGen f op value s.cup = .ok (.done, r) cup ∧ s' = { s with cup := cup } := by
  obtain ⟨⟨g, v⟩, t, hlift, h⟩ := Run.bind_eq_ok.mp h
  obtain ⟨cup, hgen, rfl⟩ := liftComp_eq_ok hlift
  cases g with
  | done =>
    cases h
    exact ⟨cup, hgen, rfl⟩
  | error =>
    cases h
    exact absurd rfl hr
  | «continue» =>
    cases h
    exact absurd rfl hr

/-- `inferTypes` into another vector. -/
theorem inferInto_eq_ok {s s' : ResState} {written : List Node} {v : CUPValue}
    (h : inferInto rec s = .ok (written, v) s') :
    ∃ s₁, rec false false { s with new := [] } = .ok v s₁ ∧ written = s₁.new ∧
      s' = { s₁ with new := s.new } := by
  unfold inferInto at h
  rw [Run.get_bind, Run.modify_bind] at h
  obtain ⟨a, s₁, hrec, h⟩ := Run.bind_eq_ok.mp h
  rw [Run.get_bind, Run.modify_bind] at h
  cases h
  exact ⟨s₁, hrec, rfl, rfl⟩

/-! ### Constructs -/

theorem defForLoop_infers (hrec : Derives H rec) {rtype : Bool} {k : Nat} {s s' : ResState}
    {entries : List (Option TRef × Nat)} (h : defForLoop H rec rtype k s = .ok (some entries) s')
    (hl : NoLostError s'.log) : Infers H s (.items entries) s' ∧ entries.length = k := by
  induction k generalizing s entries with
  | zero =>
    cases h
    exact ⟨.nil, rfl⟩
  | succ k ih =>
    obtain ⟨item, s₁, hitem, h⟩ := Run.bind_eq_ok.mp h
    by_cases herr : item = .error
    · rw [if_pos herr] at h
      cases h
    · rw [if_neg herr] at h
      obtain ⟨entry, s₂, hentry, h₂⟩ := Run.bind_eq_ok.mp h
      obtain rfl := state_of_keeps (itemOf_keeps item) hentry
      obtain ⟨rest, s₃, hrest, h₃⟩ := Run.bind_eq_ok.mp h₂
      cases rest with
      | none => cases h₃
      | some rest =>
        cases h₃
        obtain ⟨hinfers, rfl⟩ := ih hrest
        have hp := ((logFrame H).defForLoop hrec.log rtype _).of_ok hrest
        exact ⟨.cons (hrec.infers hitem (hl.of_prefix hp) herr) hentry hinfers, rfl⟩

theorem defFor_infers (hrec : Derives H rec) {rtype : Bool} {count : Nat} {s s' : ResState}
    {fn : List (Option TRef × Nat) → CUPValue} {v : CUPValue}
    (h : defFor H rec rtype count fn s = .ok v s') (hl : NoLostError s'.log) (hv : v ≠ .error) :
    ∃ entries, v = fn entries ∧ entries.length = count ∧ Infers H s (.items entries) s' := by
  obtain ⟨items, s₁, hitems, h⟩ := Run.bind_eq_ok.mp h
  cases items with
  | none =>
    cases h
    exact absurd rfl hv
  | some entries =>
    cases h
    obtain ⟨hinfers, hlen⟩ := defForLoop_infers hrec hitems hl
    exact ⟨entries, rfl, hlen, hinfers⟩

/-- Elements of one type are a list. -/
theorem fnArray_of_ne {entries : List (Option TRef × Nat)} (h : fnArray entries ≠ .error) :
    fnArray entries = fnComma entries := by
  unfold fnArray at h ⊢
  dsimp only at h ⊢
  split at h
  · rename_i hall
    rw [if_pos hall]
  · exact absurd rfl h

/-- What an accepted assignment does: a variable on the left takes a known type, anything else
    stays. -/
theorem assignType_eq_ok {type : Option TRef} {left right v : CUPValue} {s s' : ResState}
    (h : assignType type left right s = .ok v s') (hv : v ≠ .error) :
    v = right ∧
      ((∃ target name t var, left = .variable (some target) name ∧ type = some t ∧
        s.cup.vars.items[target]? = some var ∧ setType target t s = .ok () s') ∨
      s' = s ∧ ((∃ target name, left = .variable (some target) name ∧ type = none) ∨
        ∃ old p, left = .address old p ∧ (type = none ∨ old = type))) := by
  cases left with
  | «variable» var name =>
    cases var with
    | none => cases h
    | some target =>
      obtain ⟨old, s₁, hread, hif⟩ := Run.bind_eq_ok.mp h
      obtain ⟨rfl, var, hvar, -⟩ := varType_ok hread
      split at hif
      · cases hif
        exact absurd rfl hv
      · cases type with
        | none =>
          cases hif
          exact ⟨rfl, .inr ⟨rfl, .inl ⟨target, name, rfl, rfl⟩⟩⟩
        | some t =>
          obtain ⟨_, s₂, hset, hend⟩ := Run.bind_eq_ok.mp hif
          cases hend
          exact ⟨rfl, .inl ⟨target, name, t, var, rfl, rfl, hvar, hset⟩⟩
  | address old p =>
    dsimp only [assignType] at h
    split at h
    · cases h
      exact absurd rfl hv
    · rename_i hne
      cases h
      refine ⟨rfl, .inr ⟨rfl, .inr ⟨old, p, rfl, ?_⟩⟩⟩
      cases type with
      | none => exact .inl rfl
      | some t => exact .inr (not_not.mp fun h => hne ⟨rfl, h⟩)
  | _ => cases h

/-- An accepted assignment compares with the type of the right side. -/
theorem eqChecks_eq_ok {left right v : CUPValue} {s s' : ResState}
    (h : eqChecks left right s = .ok v s') (hv : v ≠ .error) :
    assignType (right.typeIn s.cup) left right s = .ok v s' := by
  cases right with
  | any type => exact h
  | value type n => exact h
  | address type p => exact h
  | «variable» var name =>
    cases var with
    | none => cases h
    | some w =>
      obtain ⟨type, s₁, hread, hassign⟩ := Run.bind_eq_ok.mp h
      obtain ⟨rfl, var, hvar, rfl⟩ := varType_ok hread
      change assignType (s₁.cup.vars.items[w]?.bind (·.typee)) left _ s₁ = .ok v s'
      rw [hvar]
      exact hassign
  | list types values =>
    cases h
    exact absurd rfl hv
  | _ => cases h

/-- Whatever compares two sides has results on both. -/
theorem eqChecks_sides {left right v : CUPValue} {s s' : ResState}
    (h : eqChecks left right s = .ok v s') (hv : v ≠ .error) : left ≠ .error ∧ right ≠ .error := by
  obtain ⟨rfl, hcases⟩ := assignType_eq_ok (eqChecks_eq_ok h hv) hv
  refine ⟨?_, hv⟩
  rintro rfl
  obtain ⟨target, name, t, var, hl, -⟩ | ⟨-, ⟨target, name, hl, -⟩ | ⟨old, p, hl, -⟩⟩ := hcases
  all_goals cases hl

theorem eqInfer_infers (hrec : Derives H rec) {s s' : ResState} {loc : Loc} {rest : List Node}
    {v : CUPValue} (hs : s.range = .tok loc :: rest) (ht : loc.token = .tEq)
    (h : eqInfer rec (s.copied [.tok loc] rest) = .ok v s') (hl : NoLostError s'.log)
    (hv : v ≠ .error) : Infers H s (.value v) s' := by
  unfold eqInfer at h
  rw [Run.get_bind] at h
  obtain ⟨right, s₁, hright, h⟩ := Run.bind_eq_ok.mp h
  rw [Run.get_bind] at h
  obtain ⟨left, s₂, hleft, h⟩ := Run.bind_eq_ok.mp h
  rw [Run.modify_bind] at h
  obtain ⟨hl', hr'⟩ := eqChecks_sides h hv
  have hp₂ : s₂.log <+: s'.log :=
    (List.prefix_append _ _).trans (((logFrame H).eqChecks left right).of_ok h)
  have hp₁ := (hrec.log _ _).of_ok hleft
  exact .eq hs ht (hrec.infers hright (hl.of_prefix (hp₁.trans hp₂)) hr')
    (hrec.infers hleft (hl.of_prefix hp₂) hl') rfl h hv

theorem dotInfer_infers (hrec : Derives H rec) {s s' : ResState} {loc : Loc} {rest : List Node}
    {v : CUPValue} (hs : s.range = .tok loc :: rest) (ht : loc.token = .tDot)
    (h : dotInfer H rec loc { s with range := rest } = .ok v s') (hl : NoLostError s'.log)
    (hv : v ≠ .error) : Infers H s (.value v) s' := by
  obtain ⟨⟨written, left⟩, s₁, hinto, h⟩ := Run.bind_eq_ok.mp h
  obtain ⟨t, hleft, -, rfl⟩ := inferInto_eq_ok hinto
  obtain ⟨n, s₂, hnode, h⟩ := Run.bind_eq_ok.mp h
  obtain ⟨rest₂, hr₂, rfl⟩ := nextNode_eq_ok hnode
  cases n with
  | tok name =>
    dsimp only at h
    by_cases hid : name.token ≠ .tIdentifier
    · rw [if_pos hid] at h
      cases h
      exact absurd rfl hv
    · rw [if_neg hid] at h
      obtain ⟨str, s₃, hstr, h⟩ := Run.bind_eq_ok.mp h
      obtain ⟨rest₃, hr₃, rfl⟩ := nextString_eq_ok hstr
      cases left with
      | «variable» var name' =>
        cases var with
        | none =>
          cases h
          exact absurd rfl hv
        | some v' =>
          obtain ⟨m, s₄, hm, h⟩ := Run.bind_eq_ok.mp h
          obtain rfl := state_of_keeps (metaOf_keeps v') hm
          cases m with
          | none =>
            cases h
            exact absurd rfl hv
          | some fv =>
            obtain ⟨r, s₅, hr, h⟩ := Run.bind_eq_ok.mp h
            have hname := hr₂.trans (congrArg (Node.tok name :: ·) hr₃)
            have hid := not_not.mp hid
            cases r with
            | value type n =>
              obtain ⟨cup, hgen, rfl⟩ := metaApply_eq_ok hr (by simp)
              cases h
              have hleft := hrec.infers hleft hl (by simp)
              have hmember := Infers.member hs ht hleft hname hid hgen rfl
              exact hmember
            | address type p =>
              obtain ⟨cup, hgen, rfl⟩ := metaApply_eq_ok hr (by simp)
              cases h
              have hleft := hrec.infers hleft hl (by simp)
              have hmember := Infers.member hs ht hleft hname hid hgen rfl
              exact hmember
            | _ =>
              cases h
              exact absurd rfl hv
      | function t v => cases h
      | _ =>
        cases h
        exact absurd rfl hv
  | _ => cases h

theorem callResult_eq_ok {loc : Loc} {args : List Node} {r v : CUPValue} {s s' : ResState}
    (h : callResult loc args r s = .ok v s') :
    v = r ∧ ∃ nodes, r.called loc args = some nodes ∧ s' = { s with new := s.new ++ nodes } := by
  cases r with
  | function t value =>
    cases h
    exact ⟨rfl, _, rfl, by simp⟩
  | value t n =>
    cases h
    exact ⟨rfl, _, rfl, rfl⟩
  | _ => cases h

theorem callInfer_infers (hrec : Derives H rec) {s s' : ResState} {loc : Loc} {rest : List Node}
    {v : CUPValue} (hs : s.range = .tok loc :: rest) (ht : loc.token = .tCall)
    (h : callInfer H rec loc { s with range := rest } = .ok v s') (hl : NoLostError s'.log)
    (hv : v ≠ .error) : Infers H s (.value v) s' := by
  obtain ⟨⟨written, left⟩, s₁, hinto, h⟩ := Run.bind_eq_ok.mp h
  obtain ⟨t₁, hleft, -, rfl⟩ := inferInto_eq_ok hinto
  obtain ⟨⟨args, right⟩, s₂, hinto, h⟩ := Run.bind_eq_ok.mp h
  obtain ⟨t₂, hright, rfl, rfl⟩ := inferInto_eq_ok hinto
  have hp := (hrec.log _ _).of_ok hright
  cases left with
  | list types values =>
    cases h
    exact absurd rfl hv
  | value t v =>
    cases h
    exact absurd rfl hv
  | «variable» var name =>
    cases var with
    | none => cases h
    | some v' =>
      obtain ⟨t, s₃, hvar, h⟩ := Run.bind_eq_ok.mp h
      obtain ⟨rfl, -⟩ := varType_ok hvar
      cases t with
      | none => cases h
      | some t =>
        cases right with
        | list types values =>
          refine (Run.sat_iff_ok (Q := fun v s' => NoLostError s'.log → v ≠ .error →
            Infers H s (.value v) s')).mp ?_ v s' h hl hv
          refine Run.sat_bind.mpr (Run.sat_get.mpr ?_)
          split
          · trivial
          · refine Run.sat_iff_ok.mpr fun v s' h hl hv => ?_
            rw [Run.get_bind] at h
            obtain ⟨var, s₄, hread, h⟩ := Run.bind_eq_ok.mp h
            obtain ⟨-, rfl⟩ := Run.lift_eq_ok.mp hread
            obtain ⟨⟨g, r⟩, s₅, hlift, h⟩ := Run.bind_eq_ok.mp h
            obtain ⟨cup, hgen, rfl⟩ := liftComp_eq_ok hlift
            cases g with
            | error =>
              cases h
              exact absurd rfl hv
            | «continue» => cases h
            | done =>
              obtain ⟨rfl, nodes, hnodes, rfl⟩ := callResult_eq_ok h
              have hleft := hrec.infers hleft (hl.of_prefix hp) (by simp)
              have hcall := Infers.call hs ht hleft (hrec.infers hright hl (by simp)) hgen hnodes
              exact hcall
          · exact fun _ hv => absurd rfl hv
        | _ =>
          cases h
          exact absurd rfl hv
  | _ => cases h

/-- An index leaves the state alone, and is accepted as an address, for a number. -/
theorem arrayIndex_sat {type : Option TRef} {base : Nat} {right : CUPValue} {s : ResState} :
    (arrayIndex type base right).Sat s
      (fun r s' => s' = s ∧ (r = .error ∨
        ∃ itype i element p, right = .value itype i ∧ r = .address element p))
      fun _ _ => True := by
  refine Run.sat_bind.mpr (Run.sat_get.mpr ?_)
  split
  · split
    · split
      · exact ⟨rfl, .inl rfl⟩
      · split
        · exact ⟨rfl, .inl rfl⟩
        · split
          · exact ⟨rfl, .inl rfl⟩
          · exact ⟨rfl, .inr ⟨_, _, _, _, rfl, rfl⟩⟩
    · exact ⟨rfl, .inl rfl⟩
  · exact ⟨rfl, .inl rfl⟩

theorem indexInfer_eq_ok {left right v : CUPValue} {type : Option TRef} {base : Nat}
    {s s' : ResState} (h : indexInfer left type base right s = .ok v s') (hv : v ≠ .error) :
    ∃ itype i element p, right = .value itype i ∧ v = .address element p ∧
      arrayIndex type base right s = .ok v s ∧ s' = s.logged (.indexed left base i p) := by
  obtain ⟨r, s₁, hr, h⟩ := Run.bind_eq_ok.mp h
  obtain ⟨rfl, rfl | ⟨itype, i, element, p, rfl, rfl⟩⟩ := (Run.sat_of_ok hr).mp arrayIndex_sat
  · have herr : v = .error := by
      cases right <;> cases h <;> rfl
    exact absurd herr hv
  · cases h
    exact ⟨itype, i, element, p, rfl, rfl, hr, rfl⟩

theorem osbInfer_infers (hrec : Derives H rec) {s s' : ResState} {loc : Loc} {rest : List Node}
    {v : CUPValue} (hs : s.range = .tok loc :: rest) (ht : loc.token = .tOsb)
    (h : osbInfer H rec loc s.new.length (s.copied [.tok loc] rest) = .ok v s')
    (hl : NoLostError s'.log) (hv : v ≠ .error) : Infers H s (.value v) s' := by
  obtain ⟨left, s₁, hleft, h⟩ := Run.bind_eq_ok.mp h
  obtain ⟨right, s₂, hright, h⟩ := Run.bind_eq_ok.mp h
  have hp := (hrec.log _ _).of_ok hright
  cases left with
  | «variable» var name =>
    cases var with
    | none =>
      cases h
      exact absurd rfl hv
    | some v' =>
      obtain ⟨m, s₃, hm, h⟩ := Run.bind_eq_ok.mp h
      obtain rfl := state_of_keeps (metaOf_keeps v') hm
      cases m with
      | none =>
        dsimp only at h
        rw [Run.get_bind] at h
        obtain ⟨var, s₄, hread, h⟩ := Run.bind_eq_ok.mp h
        obtain ⟨hvar, rfl⟩ := Run.lift_eq_ok.mp hread
        obtain ⟨itype, i, element, p, rfl, rfl, hindex, rfl⟩ := indexInfer_eq_ok h hv
        have htype : CUPValue.typeIn s₃.cup (.variable (some v') name) = var.typee := by
          change s₃.cup.vars.items[v']?.bind (·.typee) = var.typee
          rw [CVec.at_ok hvar]
          rfl
        have hl₂ : NoLostError s₃.log := hl.of_prefix (List.prefix_append _ _)
        exact .index hs ht (hrec.infers hleft (hl₂.of_prefix hp) (by simp))
          (hrec.infers hright hl₂ (by simp)) (by rw [htype]; exact hindex)
      | some fv =>
        dsimp only at h
        rw [logEvent, Run.modify_bind] at h
        obtain ⟨r, s₄, hr, h⟩ := Run.bind_eq_ok.mp h
        have hparts : NoLostError (s₃.logged (.dropped right)).log →
            Infers H (s.copied [.tok loc] rest) (.value (.variable (some v') name)) s₁ ∧
              Infers H s₁ (.value right) s₃ := by
          intro hl
          have hl₂ : NoLostError s₃.log := hl.of_prefix (List.prefix_append _ _)
          have hright' : right ≠ .error := by
            rintro rfl
            exact hl (by simp [ResState.logged])
          exact ⟨hrec.infers hleft (hl₂.of_prefix hp) (by simp), hrec.infers hright hl₂ hright'⟩
        cases r with
        | address type p =>
          obtain ⟨cup, hgen, rfl⟩ := metaApply_eq_ok hr (by simp)
          cases h
          obtain ⟨hleft, hright⟩ := hparts hl
          exact .metaIndex hs ht hleft hright hgen rfl
        | value type n =>
          obtain ⟨cup, hgen, rfl⟩ := metaApply_eq_ok hr (by simp)
          cases h
          obtain ⟨hleft, hright⟩ := hparts hl
          exact .metaIndex hs ht hleft hright hgen rfl
        | _ =>
          cases h
          exact absurd rfl hv
  | address type pvalue =>
    dsimp only at h
    split at h
    · cases h
      exact absurd rfl hv
    · rw [Run.get_bind] at h
      obtain ⟨itype, i, element, p, rfl, rfl, hindex, rfl⟩ := indexInfer_eq_ok h hv
      have hl₂ : NoLostError s₂.log := hl.of_prefix (List.prefix_append _ _)
      exact .index hs ht (hrec.infers hleft (hl₂.of_prefix hp) (by simp))
        (hrec.infers hright hl₂ (by simp)) hindex
  | function t v => cases h
  | _ =>
    cases h
    exact absurd rfl hv

theorem arrayInfer_infers (hrec : Derives H rec) {s s' : ResState} {loc : Loc}
    {rest : List Node} {v : CUPValue} (hs : s.range = .tok loc :: rest) (ht : loc.token = .nArray)
    (h : arrayInfer H rec loc { s with range := rest } = .ok v s') (hl : NoLostError s'.log) :
    Infers H s (.value v) s' := by
  obtain ⟨i, s₁, hi, h⟩ := Run.bind_eq_ok.mp h
  obtain ⟨rest', hr, rfl⟩ := nextValue_eq_ok hi
  have hr : rest = .value i :: rest' := hr
  subst hr
  dsimp only at h
  rw [Run.get_bind, pushNew, Run.modify_bind] at h
  obtain ⟨r, s₂, hlist, h⟩ := Run.bind_eq_ok.mp h
  cases r with
  | list types values =>
    dsimp only at h
    by_cases hlt : uint16Max ≤ types.length
    · rw [if_pos hlt] at h
      cases h
    · rw [if_neg hlt] at h
      obtain ⟨t, s₃, hlift, h⟩ := Run.bind_eq_ok.mp h
      obtain ⟨cup, htype, rfl⟩ := liftComp_eq_ok hlift
      rw [logEvent, Run.modify_bind] at h
      cases h
      have hl₂ : NoLostError s₂.log := hl.of_prefix (List.prefix_append _ _)
      exact .array hs ht (hrec.infers hlist hl₂ (by simp)) (Nat.lt_of_not_le hlt) htype
  | _ => cases h

theorem stringInfer_infers {s s' : ResState} {loc : Loc} {rest : List Node} {v : CUPValue}
    (hs : s.range = .tok loc :: rest) (ht : loc.token = .tString ∨ loc.token = .tMstring)
    (h : stringInfer H loc { s with range := rest } = .ok v s') : Infers H s (.value v) s' := by
  obtain ⟨i, s₁, hi, h⟩ := Run.bind_eq_ok.mp h
  obtain ⟨rest', hr, rfl⟩ := nextValue_eq_ok hi
  have hr : rest = .value i :: rest' := hr
  subst hr
  dsimp only at h
  rw [Run.get_bind, pushNew, Run.modify_bind] at h
  cases hoff : getData s.cup i with
  | none =>
    rw [hoff] at h
    cases h
  | some off =>
    rw [hoff] at h
    dsimp only at h
    split at h
    · cases h
    · split at h
      · cases h
      · rename_i hlt
        obtain ⟨t, s₃, hlift, h⟩ := Run.bind_eq_ok.mp h
        obtain ⟨cup, htype, rfl⟩ := liftComp_eq_ok hlift
        rw [logEvent, Run.modify_bind] at h
        cases h
        exact .string hs ht hoff rfl (Nat.lt_of_not_le hlt) htype

theorem variableInfer_infers {s s' : ResState} {loc : Loc} {rest : List Node} {v : CUPValue}
    (hs : s.range = .tok loc :: rest) (ht : loc.token = .tIdentifier)
    (h : variableInfer loc { s with range := rest } = .ok v s') : Infers H s (.value v) s' := by
  obtain ⟨name, s₁, hname, h⟩ := Run.bind_eq_ok.mp h
  obtain ⟨rest', hr, rfl⟩ := nextString_eq_ok hname
  have hr : rest = .svalue name :: rest' := hr
  subst hr
  dsimp only at h
  rw [Run.get_bind] at h
  obtain ⟨var, s₂, hread, h⟩ := Run.bind_eq_ok.mp h
  obtain ⟨hvar, rfl⟩ := Run.lift_eq_ok.mp hread
  rw [Run.modify_bind, pushNew, Run.modify_bind] at h
  cases h
  exact .identifier hs ht hvar

theorem thisInfer_infers {s s' : ResState} {loc : Loc} {rest : List Node} {v : CUPValue}
    (hs : s.range = .tok loc :: rest) (ht : loc.token = .tThis)
    (h : thisInfer loc { s with range := rest } = .ok v s') (hv : v ≠ .error) :
    Infers H s (.value v) s' := by
  unfold thisInfer at h
  rw [Run.get_bind] at h
  obtain ⟨var, s₂, hread, h⟩ := Run.bind_eq_ok.mp h
  obtain ⟨hvar, rfl⟩ := Run.lift_eq_ok.mp hread
  cases var with
  | none =>
    cases h
    exact absurd rfl hv
  | some var =>
    cases h
    exact .this hs ht hvar

theorem atInfer_infers (hrec : Derives H rec) {s s' : ResState} {loc : Loc} {rest : List Node}
    {v : CUPValue} (hs : s.range = .tok loc :: rest) (ht : loc.token = .tAt)
    (h : atInfer rec (s.copied [.tok loc] rest) = .ok v s') (hl : NoLostError s'.log)
    (hv : v ≠ .error) : Infers H s (.value v) s' := by
  obtain ⟨left, s₁, hleft, h⟩ := Run.bind_eq_ok.mp h
  rw [nextScope, Run.modify_bind] at h
  obtain ⟨params, s₂, hparams, h⟩ := Run.bind_eq_ok.mp h
  rw [logEvent, Run.modify_bind] at h
  obtain ⟨body, s₃, hbody, h⟩ := Run.bind_eq_ok.mp h
  rw [logEvent, Run.modify_bind] at h
  cases h
  -- the errors of the list and of the body would be lost
  have hl₃ : NoLostError s₃.log := hl.of_prefix (List.prefix_append _ _)
  have hp₃ : s₂.log ++ [.dropped params] <+: s₃.log := (hrec.log _ _).of_ok hbody
  have hl₂' := hl₃.of_prefix hp₃
  have hl₂ : NoLostError s₂.log := hl₂'.of_prefix (List.prefix_append _ _)
  have hbody' : body ≠ .error := by
    rintro rfl
    exact hl (List.mem_append_right _ List.mem_cons_self)
  have hparams' : params ≠ .error := by
    rintro rfl
    exact hl₂' (List.mem_append_right _ List.mem_cons_self)
  have hp₂ : s₁.inner.log <+: s₂.log := (hrec.log _ _).of_ok hparams
  exact .define hs ht (hrec.infers hleft (hl₂.of_prefix hp₂) hv)
    (hrec.infers hparams hl₂ hparams') (hrec.infers hbody hl₃ hbody')

theorem returnInfer_infers (hrec : Derives H rec) {rtype : Bool} {s s' : ResState} {loc : Loc}
    {rest : List Node} {v : CUPValue} (hs : s.range = .tok loc :: rest)
    (ht : loc.token = .tReturn) (h : returnInfer rec rtype (s.copied [.tok loc] rest) = .ok v s')
    (hl : NoLostError s'.log) : Infers H s (.value v) s' := by
  obtain ⟨left, s₁, hleft, h⟩ := Run.bind_eq_ok.mp h
  cases left with
  | value t n =>
    dsimp only at h
    split at h
    · cases h
    · split at h
      · cases h
      · cases h
        exact .ret hs ht (hrec.infers hleft hl (by simp))
  | _ => cases h

end Derives

/-- A run that is not an error, and lost none, is a derivation. -/
theorem inferTypes_derives (H : ResHost) (n : Nat) : Derives H (inferTypes H n) := by
  induction n with
  | zero =>
    refine ⟨fun _ _ => inferTypes_along (logFrame H) 0 _ _, fun h _ _ => ?_⟩
    cases h
  | succ n ih =>
    refine ⟨fun _ _ => inferTypes_along (logFrame H) (n + 1) _ _, fun {rtype array s v s'} h hl hv => ?_⟩
    obtain ⟨node, s₁, hnode, h⟩ := Run.bind_eq_ok.mp h
    obtain ⟨rest, hs, rfl⟩ := nextNode_eq_ok hnode
    cases node with
    | tok loc =>
      dsimp only at h
      cases ht : loc.token
      all_goals rw [ht] at h; dsimp only at h
      case nBlock =>
        obtain ⟨_, s₂, hscope, h⟩ := Run.bind_eq_ok.mp h
        cases hscope
        obtain ⟨count, s₃, hcount, h⟩ := Run.bind_eq_ok.mp h
        obtain ⟨rest', hr, rfl⟩ := nextValue_eq_ok hcount
        have hr : rest = .value count :: rest' := hr
        subst hr
        obtain ⟨entries, rfl, rfl, hitems⟩ := defFor_infers ih h hl hv
        exact .block hs ht hitems
      case tComma =>
        obtain ⟨count, s₃, hcount, h⟩ := Run.bind_eq_ok.mp h
        obtain ⟨rest', hr, rfl⟩ := nextValue_eq_ok hcount
        have hr : rest = .value count :: rest' := hr
        subst hr
        obtain ⟨entries, hfn, rfl, hitems⟩ := defFor_infers ih h hl hv
        have hcomma : v = fnComma entries := by
          rw [hfn] at hv ⊢
          split at hv
          · rename_i harr
            rw [if_pos harr]
            exact fnArray_of_ne hv
          · rename_i harr
            rw [if_neg harr]
        rw [hcomma]
        exact .comma hs ht hitems
      case nArray => exact arrayInfer_infers ih hs ht h hl
      case tNumber =>
        obtain ⟨value, s₃, hvalue, h⟩ := Run.bind_eq_ok.mp h
        obtain ⟨rest', hr, rfl⟩ := nextValue_eq_ok hvalue
        have hr : rest = .value value :: rest' := hr
        subst hr
        cases h
        exact .number hs ht
      case tString => exact stringInfer_infers hs (.inl ht) h
      case tMstring => exact stringInfer_infers hs (.inr ht) h
      case tThis => exact thisInfer_infers hs ht h hv
      case tIdentifier => exact variableInfer_infers hs ht h
      case tDot => exact dotInfer_infers ih hs ht h hl hv
      case tEq => exact eqInfer_infers ih hs ht h hl hv
      case tCall => exact callInfer_infers ih hs ht h hl hv
      case tOsb => exact osbInfer_infers ih hs ht h hl hv
      case tAt => exact atInfer_infers ih hs ht h hl hv
      case tReturn => exact returnInfer_infers ih hs ht h hl
      all_goals
        cases h
        exact absurd rfl hv
    | _ => cases h

end Cup
