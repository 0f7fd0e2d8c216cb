/-
  Assignments through the three passes. The parser writes `L = R` as `T_EQ R L`, the resolver
  reads the right side first and keeps that order, and the generator takes the first tree as
  the destination: it stores the value of `L` at the address of `R`. `L += R` is written as
  `T_ADDEQ L R`, in the order of the generator, but the resolver rejects it. So no assignment
  goes through with its sides in their places (`assignment_not_agrees`).
-/
import Cup.ParserForm
import Cup.Resolver

namespace Cup

open Lib (Stop Run)

/-! ## What the resolver writes -/

/-- The tokens with a payload node behind them: those of the parser, and two of the resolver. -/
def paired (t : CTType) : Bool := wide t || t = .tMstring || t = .nAddress

/-- The nodes of tokens with their payloads, whatever trees they make. -/
structure StreamOf (nodes : List Node) (cells : List Cell) : Prop where
  nodes : nodes = encode cells
  payload : ∀ c ∈ cells, c.payload.isSome = paired c.token

/-- The nodes are tokens with their payloads. -/
def Written (w : List Node) : Prop := ∃ cells, StreamOf w cells

theorem written_nil : Written [] := ⟨[], rfl, by simp⟩

theorem Written.append {w w' : List Node} (h : Written w) (h' : Written w') :
    Written (w ++ w') := by
  obtain ⟨cells, rfl, hc⟩ := h
  obtain ⟨cells', rfl, hc'⟩ := h'
  exact ⟨cells ++ cells', (encode_append _ _).symm,
    fun c hmem => (List.mem_append.mp hmem).elim (hc c) (hc' c)⟩

theorem written_token {loc : Loc} {t : CTType} (ht : loc.token = t) (hp : paired t = false) :
    Written [.tok loc] :=
  ⟨[⟨loc, none⟩], rfl, fun c hc => by
    rw [List.mem_singleton.mp hc, Cell.token, ht, hp]
    rfl⟩

theorem written_pair {loc : Loc} {t : CTType} {x : Node} (ht : loc.token = t) (hp : paired t) :
    Written [.tok loc, x] :=
  ⟨[⟨loc, some x⟩], rfl, fun c hc => by
    rw [List.mem_singleton.mp hc, Cell.token, ht, hp]
    rfl⟩

/-- `x` appends to the new nodes, and at least one node when `Q` holds of its result. -/
def Appends {α : Type} (Q : α → Prop) (x : Inf α) : Prop :=
  ∀ s, x.Sat s (fun a s' => ∃ w, s'.new = s.new ++ w ∧ Written w ∧ (Q a → w ≠ [])) fun _ _ => True

/-- `x` only appends to the new nodes. -/
abbrev Writes {α : Type} (x : Inf α) : Prop := Appends (fun _ => False) x

section Appends

variable {α β : Type} {Q : α → Prop} {R : β → Prop}

theorem Appends.mono {x : Inf α} (h : Appends Q x) {Q' : α → Prop} (hq : ∀ a, Q' a → Q a) :
    Appends Q' x := by
  intro s
  refine Run.sat_mono (h s) ?_ fun _ _ h => h
  rintro a s' ⟨w, hw, hc, hne⟩
  exact ⟨w, hw, hc, fun h' => hne (hq a h')⟩

theorem Appends.writes {x : Inf α} (h : Appends Q x) : Writes x := h.mono fun _ => False.elim

theorem writes_of_keeps {x : Inf α} (h : x.Keeps (·.new) fun _ => True) : Writes x :=
  fun s => Run.sat_mono (h s) (fun _ _ h => ⟨[], by simpa using h, written_nil, False.elim⟩)
    fun _ _ _ => trivial

theorem appends_pure (a : α) (h : ¬ Q a) : Appends Q (pure a : Inf α) :=
  fun s => ⟨[], by simp, written_nil, fun hq => absurd hq h⟩

theorem appends_stop (e : Stop) : Appends Q (Run.stop e : Inf α) := fun _ => trivial

theorem Appends.bind {x : Inf α} {f : α → Inf β} (hx : Appends Q x)
    (hf : ∀ a, Appends (fun b => R b ∧ ¬ Q a) (f a)) : Appends R (x >>= f) := by
  intro s
  rw [Run.sat_bind]
  refine Run.sat_mono (hx s) ?_ fun _ _ h => h
  rintro a s' ⟨w, hw, hc, hq⟩
  refine Run.sat_mono (hf a s') ?_ fun _ _ h => h
  rintro b s'' ⟨w', hw', hc', hr⟩
  refine ⟨w ++ w', by rw [hw', hw, List.append_assoc], hc.append hc', fun hb he => ?_⟩
  obtain ⟨rfl, rfl⟩ := List.append_eq_nil_iff.mp he
  by_cases hqa : Q a
  · exact hq hqa rfl
  · exact hr ⟨hb, hqa⟩ rfl

/-- In front of code that writes what has to be written. -/
theorem Appends.before {x : Inf α} {f : α → Inf β} (hx : Writes x) (hf : ∀ a, Appends R (f a)) :
    Appends R (x >>= f) :=
  hx.bind fun a => (hf a).mono fun _ h => h.1

theorem appends_pushNew {nodes : List Node} (hw : Written nodes) (h : nodes ≠ []) :
    Appends (fun _ => True) (pushNew nodes) :=
  fun _ => ⟨nodes, rfl, hw, fun _ => h⟩

theorem writes_pushNew {nodes : List Node} (hw : Written nodes) : Writes (pushNew nodes) :=
  fun _ => ⟨nodes, rfl, hw, False.elim⟩

/-- Behind a push nothing else has to be written. -/
theorem Appends.pushed {nodes : List Node} {f : Unit → Inf β} (hw : Written nodes) (h : nodes ≠ [])
    (hf : Writes (f ())) : Appends R (pushNew nodes >>= f) :=
  (appends_pushNew hw h).bind fun _ => hf.mono fun _ h => h.2 trivial

/-! ## Parts without nodes -/

theorem writes_get : Writes (Run.get : Inf ResState) := writes_of_keeps Run.keeps_get

theorem writes_lift (x : Except Stop α) : Writes (Run.lift x : Inf α) :=
  writes_of_keeps (Run.keeps_lift fun _ _ => trivial)

theorem writes_liftComp (x : Comp α) : Writes (liftComp x) := by
  intro s
  unfold Run.Sat liftComp
  cases hx : x s.cup with
  | ok a cup => exact ⟨[], by simp, written_nil, False.elim⟩
  | stop e cup => trivial

theorem writes_modify {g : ResState → ResState} (h : ∀ s, (g s).new = s.new) :
    Writes (Run.modify g : Inf Unit) :=
  writes_of_keeps (Run.keeps_modify h)

theorem writes_nextNode : Writes nextNode := by
  intro s
  unfold nextNode
  rw [Run.sat_bind, Run.sat_get]
  cases s.range with
  | nil => trivial
  | cons n rest => exact ⟨[], by simp, written_nil, False.elim⟩

theorem writes_nextValue : Writes nextValue := by
  refine Appends.before writes_nextNode fun n => ?_
  cases n with
  | value v => exact appends_pure v id
  | _ => exact appends_stop _

theorem writes_nextString : Writes nextString := by
  refine Appends.before writes_nextNode fun n => ?_
  cases n with
  | svalue str => exact appends_pure str id
  | _ => exact appends_stop _

/-- `x` leaves the new nodes and the record of the assignments alone. -/
abbrev Plain {α : Type} (x : Inf α) : Prop := x.Keeps (fun s => (s.new, s.sides)) fun _ => True

theorem Plain.writes {x : Inf α} (h : Plain x) : Writes x := writes_of_keeps (h.map Prod.fst)

theorem plain_varType (v : Nat) : Plain (varType v) :=
  Run.keeps_bind Run.keeps_get fun _ =>
    Run.keeps_bind (Run.keeps_lift fun _ _ => trivial) fun _ => Run.keeps_pure _

theorem plain_assignType (type : Option TRef) (left right : CUPValue) :
    Plain (assignType type left right) := by
  have hset : ∀ v t, Plain (setType v t) := fun v t => Run.keeps_modify fun _ => rfl
  cases left with
  | «variable» var name =>
    cases var with
    | none => exact Run.keeps_stop trivial
    | some target =>
      refine Run.keeps_bind (plain_varType target) fun old => ?_
      split
      · exact Run.keeps_pure _
      · cases type with
        | some t => exact Run.keeps_bind (hset target t) fun _ => Run.keeps_pure _
        | none => exact Run.keeps_bind (Run.keeps_pure _) fun _ => Run.keeps_pure _
  | address old p =>
    dsimp only [assignType]
    split
    · exact Run.keeps_pure _
    · exact Run.keeps_pure _
  | _ => exact Run.keeps_stop trivial

theorem plain_eqChecks (left right : CUPValue) : Plain (eqChecks left right) := by
  cases right with
  | any type => exact plain_assignType type left _
  | value type v => exact plain_assignType type left _
  | address type p => exact plain_assignType type left _
  | «variable» var name =>
    cases var with
    | none => exact Run.keeps_stop trivial
    | some v => exact Run.keeps_bind (plain_varType v) fun _ => plain_assignType _ left _
  | list types values => exact Run.keeps_pure _
  | _ => exact Run.keeps_stop trivial

/-- A right side that is an error ends the process. -/
theorem eqChecks_error {left a : CUPValue} {s s' : ResState} :
    eqChecks left .error s ≠ .ok a s' := by
  intro h
  cases h

theorem writes_metaOf (v : Nat) : Writes (metaOf v) := by
  refine Appends.before writes_get fun s => Appends.before (writes_lift _) fun var => ?_
  split <;> exact appends_pure _ id

theorem writes_metaApply (H : ResHost) (f value : Nat) (op : MetaOp) :
    Writes (metaApply H f value op) := by
  refine Appends.before (writes_liftComp _) fun r => ?_
  obtain ⟨r, v⟩ := r
  cases r <;> exact appends_pure _ id

theorem writes_arrayIndex (type : Option TRef) (base : Nat) (right : CUPValue) :
    Writes (arrayIndex type base right) := by
  refine Appends.before writes_get fun s => ?_
  split
  · split
    · repeat' split
      all_goals exact appends_pure _ id
    · exact appends_pure _ id
  · exact appends_pure _ id

theorem writes_logEvent (e : ResEvent) : Writes (logEvent e) := writes_modify fun _ => rfl

theorem writes_indexInfer (left : CUPValue) (type : Option TRef) (base : Nat) (right : CUPValue) :
    Writes (indexInfer left type base right) := by
  refine Appends.before (writes_arrayIndex _ _ _) fun r => ?_
  dsimp only
  split
  · exact Appends.before (writes_logEvent _) fun _ => appends_pure _ id
  · exact appends_pure _ id

theorem writes_itemOf (H : ResHost) (item : CUPValue) : Writes (itemOf H item) := by
  cases item with
  | value type v =>
    cases type with
    | none => exact appends_stop _
    | some t => exact appends_pure _ id
  | «variable» var name =>
    cases var with
    | none => exact appends_stop _
    | some v =>
      exact Appends.before writes_get fun _ =>
        Appends.before (writes_lift _) fun _ => appends_pure _ id
  | address type p =>
    cases type with
    | none => exact appends_stop _
    | some t => exact Appends.before writes_get fun _ => appends_pure _ id
  | _ => exact appends_stop _

end Appends

/-! ## What each tree writes -/

section Trees

variable {H : ResHost} {rec : Infer}

/-- A tree that is not an error has nodes. -/
abbrev Solid (rec : Infer) : Prop := ∀ rtype array, Appends (· ≠ .error) (rec rtype array)

/-- The nodes of a separate vector are handed on, and not written. -/
theorem inferInto_written (hrec : Solid rec) (s : ResState) :
    (inferInto rec).Sat s (fun r s' => s'.new = s.new ∧ Written r.1) fun _ _ => True := by
  unfold inferInto
  simp only [Run.sat_bind, Run.sat_get, Run.sat_modify, Run.sat_pure]
  refine Run.sat_mono (hrec false false { s with new := [] }) ?_ fun _ _ h => h
  rintro v s' ⟨w, hw, hc, -⟩
  refine ⟨trivial, ?_⟩
  rw [hw]
  exact hc

/-- Behind a separate vector. -/
theorem Appends.into {β : Type} {R : β → Prop} {f : List Node × CUPValue → Inf β}
    (hrec : Solid rec) (hf : ∀ r, Written r.1 → Appends R (f r)) :
    Appends R (inferInto rec >>= f) := by
  intro s
  rw [Run.sat_bind]
  refine Run.sat_mono (inferInto_written hrec s) ?_ fun _ _ h => h
  rintro r s' ⟨hnew, hw⟩
  rw [← hnew]
  exact hf r hw s'

theorem writes_pushPair (loc : Loc) {token : CTType} (value : Nat) (hp : paired token) :
    Writes (pushPair loc token value) :=
  writes_pushNew (written_pair rfl hp)

/-- Behind the pair nothing else has to be written. -/
theorem Appends.paired {β : Type} {R : β → Prop} {f : Unit → Inf β} {loc : Loc} {token : CTType}
    {value : Nat} (hp : Cup.paired token) (hf : Writes (f ())) :
    Appends R (pushPair loc token value >>= f) :=
  Appends.pushed (written_pair rfl hp) (by simp) hf

theorem eqInfer_writes (hrec : Solid rec) : Writes (eqInfer rec) :=
  Appends.before writes_get fun _ => Appends.before (hrec _ _).writes fun right =>
    Appends.before writes_get fun _ => Appends.before (hrec _ _).writes fun left =>
      Appends.before (writes_modify fun _ => rfl) fun _ => (plain_eqChecks left right).writes

/-- The last record is that of the assignment itself: its right side is where the new nodes
    ended, and has nodes. -/
theorem eqInfer_sides (hrec : Solid rec) {s s' : ResState} {a : CUPValue}
    (h : eqInfer rec s = .ok a s') :
    ∃ mid stop, s'.sides.getLast? = some (s.new.length, mid, stop) ∧ s.new.length < mid := by
  unfold eqInfer at h
  rw [Run.get_bind] at h
  obtain ⟨right, s₁, hr, h⟩ := Run.bind_eq_ok.mp h
  rw [Run.get_bind] at h
  obtain ⟨left, s₂, -, h⟩ := Run.bind_eq_ok.mp h
  rw [Run.modify_bind] at h
  obtain ⟨w, hw, -, hne⟩ := (Run.sat_of_ok hr).mp (hrec false false s)
  have hright : right ≠ .error := by
    rintro rfl
    exact eqChecks_error h
  have hlen : 0 < w.length := List.length_pos_iff.mpr (hne hright)
  have hsides := congrArg Prod.snd ((plain_eqChecks left right).of_ok h)
  have hsides : s'.sides = s₂.sides ++ [(s.new.length, s₁.new.length, s₂.new.length)] := hsides
  refine ⟨s₁.new.length, s₂.new.length, ?_, ?_⟩
  · rw [hsides, List.getLast?_concat]
  · rw [hw, List.length_append]
    omega

theorem dotInfer_solid (hrec : Solid rec) (loc : Loc) :
    Appends (· ≠ .error) (dotInfer H rec loc) := by
  refine Appends.into hrec fun r _ => ?_
  obtain ⟨written, left⟩ := r
  refine Appends.before writes_nextNode fun n => ?_
  cases n with
  | tok name =>
    dsimp only
    split
    · exact appends_pure _ fun h => h rfl
    · refine Appends.before writes_nextString fun str => ?_
      cases left with
      | «variable» var name' =>
        cases var with
        | none => exact appends_pure _ fun h => h rfl
        | some v =>
          refine Appends.before (writes_metaOf v) fun m => ?_
          cases m with
          | none => exact appends_pure _ fun h => h rfl
          | some fv =>
            refine Appends.before (writes_metaApply H _ _ _) fun r => ?_
            cases r with
            | value type n => exact Appends.paired rfl (appends_pure _ id)
            | address type p => exact Appends.paired rfl (appends_pure _ id)
            | _ => exact appends_pure _ fun h => h rfl
      | function t v => exact appends_stop _
      | _ => exact appends_pure _ fun h => h rfl
  | _ => exact appends_stop _

theorem callResult_solid {loc : Loc} {args : List Node} (hloc : loc.token = .tCall)
    (hargs : Written args) (r : CUPValue) : Appends (· ≠ .error) (callResult loc args r) := by
  cases r with
  | function t value =>
    exact Appends.pushed (written_token hloc rfl) (by simp)
      (Appends.before (writes_pushPair loc value rfl) fun _ =>
        Appends.before (writes_pushNew hargs) fun _ => appends_pure _ id)
  | value t n => exact Appends.paired rfl (appends_pure _ id)
  | _ => exact appends_stop _

theorem callInfer_solid (hrec : Solid rec) {loc : Loc} (hloc : loc.token = .tCall) :
    Appends (· ≠ .error) (callInfer H rec loc) := by
  refine Appends.into hrec fun l _ => ?_
  obtain ⟨-, left⟩ := l
  refine Appends.into hrec fun r hargs => ?_
  obtain ⟨args, right⟩ := r
  cases left with
  | list types values => exact appends_pure _ fun h => h rfl
  | value t v => exact appends_pure _ fun h => h rfl
  | «variable» var name =>
    cases var with
    | none => exact appends_stop _
    | some v =>
      refine Appends.before ((plain_varType v).writes) fun t => ?_
      cases t with
      | none => exact appends_stop _
      | some t =>
        cases right with
        | list types values =>
          refine Appends.before writes_get fun s => ?_
          split
          · exact appends_stop _
          · refine Appends.before writes_get fun s => Appends.before (writes_lift _) fun var => ?_
            refine Appends.before (writes_liftComp _) fun r => ?_
            obtain ⟨r, value⟩ := r
            cases r with
            | error => exact appends_pure _ fun h => h rfl
            | «continue» => exact appends_stop _
            | done => exact callResult_solid hloc hargs value
          · exact appends_pure _ fun h => h rfl
        | _ => exact appends_pure _ fun h => h rfl
  | _ => exact appends_stop _

theorem defForLoop_writes (hrec : Solid rec) (rtype : Bool) (k : Nat) :
    Writes (defForLoop H rec rtype k) := by
  induction k with
  | zero => exact appends_pure _ id
  | succ k ih =>
    refine Appends.before (hrec _ _).writes fun item => ?_
    split
    · exact appends_pure _ id
    · refine Appends.before (writes_itemOf H item) fun entry => Appends.before ih fun rest => ?_
      cases rest with
      | none => exact appends_pure _ id
      | some rest => exact appends_pure _ id

theorem defFor_writes (hrec : Solid rec) (rtype : Bool) (count : Nat)
    (fn : List (Option TRef × Nat) → CUPValue) : Writes (defFor H rec rtype count fn) := by
  refine Appends.before (defForLoop_writes hrec rtype count) fun items => ?_
  cases items with
  | none => exact appends_pure _ id
  | some items => exact appends_pure _ id

theorem arrayInfer_solid (hrec : Solid rec) {loc : Loc} (hloc : loc.token = .nArray) :
    Appends (· ≠ .error) (arrayInfer H rec loc) := by
  refine Appends.before writes_nextValue fun i => Appends.before writes_get fun s => ?_
  refine Appends.pushed (written_pair hloc rfl) (by simp) (Appends.before (hrec _ _).writes fun r => ?_)
  cases r with
  | list types values =>
    dsimp only
    split
    · exact appends_stop _
    · refine Appends.before (writes_liftComp _) fun t => ?_
      exact Appends.before (writes_logEvent _) fun _ => appends_pure _ id
  | _ => exact appends_stop _

theorem stringInfer_solid {loc : Loc} (hloc : loc.token = .tString ∨ loc.token = .tMstring) :
    Appends (· ≠ .error) (stringInfer H loc) := by
  have hw : ∀ x, Written [.tok loc, x] := fun x => by
    rcases hloc with h | h
    · exact written_pair h rfl
    · exact written_pair h rfl
  refine Appends.before writes_nextValue fun i => Appends.before writes_get fun s => ?_
  refine Appends.pushed (hw _) (by simp) ?_
  cases getData s.cup i with
  | none => exact appends_stop _
  | some off =>
    dsimp only
    repeat' split
    · exact appends_stop _
    · exact appends_stop _
    · refine Appends.before (writes_liftComp _) fun t => ?_
      exact Appends.before (writes_logEvent _) fun _ => appends_pure _ id

theorem variableInfer_solid {loc : Loc} (hloc : loc.token = .tIdentifier) :
    Appends (· ≠ .error) (variableInfer loc) := by
  refine Appends.before writes_nextString fun name => Appends.before writes_get fun s => ?_
  refine Appends.before (writes_lift _) fun v => Appends.before (writes_modify fun _ => rfl) fun _ => ?_
  exact Appends.pushed (written_pair hloc rfl) (by simp) (appends_pure _ id)

theorem thisInfer_solid {loc : Loc} (hloc : loc.token = .tThis) :
    Appends (· ≠ .error) (thisInfer loc) := by
  refine Appends.before writes_get fun s => Appends.before (writes_lift _) fun v => ?_
  cases v with
  | none => exact appends_pure _ fun h => h rfl
  | some v => exact Appends.pushed (written_token hloc rfl) (by simp) (appends_pure _ id)

theorem writes_nextScope : Writes nextScope := writes_modify fun _ => rfl

theorem atInfer_writes (hrec : Solid rec) : Writes (atInfer rec) :=
  Appends.before (hrec _ _).writes fun _ => Appends.before writes_nextScope fun _ =>
    Appends.before (hrec _ _).writes fun _ => Appends.before (writes_logEvent _) fun _ =>
      Appends.before (hrec _ _).writes fun _ => Appends.before (writes_logEvent _) fun _ =>
        appends_pure _ id

theorem returnInfer_writes (hrec : Solid rec) (rtype : Bool) : Writes (returnInfer rec rtype) := by
  refine Appends.before (hrec _ _).writes fun r => ?_
  cases r with
  | value t v =>
    dsimp only
    repeat' split
    · exact appends_stop _
    · exact appends_stop _
    · exact appends_pure _ id
  | _ => exact appends_stop _

/-! ## Indexes

An index that a callback answers is replaced: what was written behind its start is cut off. -/

/-- `x` goes from nodes behind `pre` to nodes behind `pre`. -/
def Behind {α : Type} (pre : List Node) (x : Inf α) : Prop :=
  ∀ s w, s.new = pre ++ w → Written w → w ≠ [] →
    x.Sat s (fun _ s' => ∃ w', s'.new = pre ++ w' ∧ Written w' ∧ w' ≠ []) fun _ _ => True

theorem Appends.behind {α : Type} {Q : α → Prop} {x : Inf α} (h : Appends Q x) (pre : List Node) :
    Behind pre x := by
  intro s w hs hc hw
  refine Run.sat_mono (h s) ?_ fun _ _ h => h
  rintro a s' ⟨w', hw', hc', -⟩
  exact ⟨w ++ w', by rw [hw', hs, List.append_assoc], hc.append hc',
    fun he => hw (List.append_eq_nil_iff.mp he).1⟩

theorem Behind.bind {α β : Type} {pre : List Node} {x : Inf α} {f : α → Inf β}
    (hx : Behind pre x) (hf : ∀ a, Behind pre (f a)) : Behind pre (x >>= f) := by
  intro s w hs hc hw
  rw [Run.sat_bind]
  refine Run.sat_mono (hx s w hs hc hw) ?_ fun _ _ h => h
  rintro a s' ⟨w', hs', hc', hw'⟩
  exact hf a s' w' hs' hc' hw'

/-- The index is cut off and a constant takes its place. -/
theorem behind_replace {pre : List Node} (loc : Loc) {token : CTType} (hp : Cup.paired token)
    (value : Nat) (r : CUPValue) :
    Behind pre (do
      Run.modify fun s => { s with new := s.new.take pre.length }
      pushPair loc token value
      pure r : Inf CUPValue) := by
  intro s w hs _ _
  simp only [Run.sat_bind, Run.sat_modify, pushPair, pushNew, Run.sat_pure]
  exact ⟨[.tok { loc with token := token }, .value value], by rw [hs, List.take_left],
    written_pair rfl hp, by simp⟩

theorem behind_stop {α : Type} {pre : List Node} (e : Stop) : Behind pre (Run.stop e : Inf α) :=
  fun _ _ _ _ _ => trivial

theorem osbInfer_behind (hrec : Solid rec) (loc : Loc) (pre : List Node) :
    Behind pre (osbInfer H rec loc pre.length) := by
  have herror : Behind pre (pure .error : Inf CUPValue) :=
    (appends_pure (Q := fun _ => False) _ id).behind pre
  refine ((hrec _ _).behind pre).bind fun left => ((hrec _ _).behind pre).bind fun right => ?_
  cases left with
  | «variable» var name =>
    cases var with
    | none => exact herror
    | some v =>
      refine ((writes_metaOf v).behind pre).bind fun m => ?_
      cases m with
      | none =>
        refine (writes_get.behind pre).bind fun s => ((writes_lift _).behind pre).bind fun var => ?_
        exact (writes_indexInfer _ _ _ _).behind pre
      | some fv =>
        refine ((writes_logEvent _).behind pre).bind fun _ => ?_
        refine ((writes_metaApply H _ _ _).behind pre).bind fun r => ?_
        cases r with
        | address type p => exact behind_replace loc rfl p _
        | value type n => exact behind_replace loc rfl n _
        | _ => exact herror
  | address type pvalue =>
    dsimp only
    split
    · exact herror
    · exact (writes_get.behind pre).bind fun s => (writes_indexInfer _ _ _ _).behind pre
  | function t v => exact behind_stop _
  | _ => exact herror

theorem osbInfer_solid (hrec : Solid rec) {loc : Loc} (hloc : loc.token = .tOsb) :
    Appends (· ≠ .error) (do
      let mark := (← Run.get).new.length
      pushNew [.tok loc]
      osbInfer H rec loc mark) := by
  intro s
  simp only [Run.sat_bind, Run.sat_get, pushNew, Run.sat_modify]
  refine Run.sat_mono (osbInfer_behind hrec loc s.new { s with new := s.new ++ [.tok loc] }
    [.tok loc] rfl (written_token hloc rfl) (by simp)) ?_ fun _ _ h => h
  rintro a s' ⟨w, hs', hc, hw⟩
  exact ⟨w, hs', hc, fun _ => hw⟩

end Trees

/-- The resolver only appends, and a tree that it accepts has nodes. -/
theorem inferTypes_solid (H : ResHost) (n : Nat) : Solid (inferTypes H n) := by
  induction n with
  | zero => exact fun _ _ => appends_stop _
  | succ n ih =>
    intro rtype array
    refine Appends.before writes_nextNode fun node => ?_
    cases node with
    | tok loc =>
      dsimp only
      split
      · rename_i hloc
        refine Appends.before writes_nextScope fun _ => Appends.before writes_nextValue fun count => ?_
        exact Appends.pushed (written_pair hloc rfl) (by simp) (defFor_writes ih _ _ _)
      · rename_i hloc
        refine Appends.before writes_nextValue fun count => ?_
        exact Appends.pushed (written_pair hloc rfl) (by simp) (defFor_writes ih _ _ _)
      · exact arrayInfer_solid ih ‹_›
      · rename_i hloc
        refine Appends.before writes_nextValue fun value => ?_
        exact Appends.pushed (written_pair hloc rfl) (by simp) (appends_pure _ id)
      · exact stringInfer_solid (.inl ‹_›)
      · exact stringInfer_solid (.inr ‹_›)
      · exact thisInfer_solid ‹_›
      · exact variableInfer_solid ‹_›
      · exact dotInfer_solid ih loc
      · exact Appends.pushed (written_token ‹_› rfl) (by simp) (eqInfer_writes ih)
      · exact callInfer_solid ih ‹_›
      · exact osbInfer_solid ih ‹_›
      · exact Appends.pushed (written_token ‹_› rfl) (by simp) (atInfer_writes ih)
      · exact Appends.pushed (written_token ‹_› rfl) (by simp) (returnInfer_writes ih rtype)
      · exact appends_pure _ fun h => h rfl
    | _ => exact appends_stop _

/-! ## What the parser writes -/

/-- `T_EQ` with the nodes of the right side in front of those of the left side. -/
theorem eqOp_items {op : Node2} {left right v : Nodes} {s s' : CUPState}
    (h : eqOp op left right s = .ok v s') :
    v.items = .tok op.loc :: (right.items ++ left.items) := by
  unfold eqOp fpushNode at h
  obtain ⟨r, s₁, hr, h⟩ := Run.bind_eq_ok.mp h
  have hr := (Run.lift_eq_ok.mp hr).1
  have hv := (Run.lift_eq_ok.mp h).1
  obtain ⟨hlive, hitems⟩ := vectorFpush_ok hr
  unfold fpushVector at hv
  rw [hlive] at hv
  rw [(vectorFpush_ok hv).2, hitems]
  simp

/-- The other operators stand in front of their first operand. -/
theorem binaryOp_head {op : Node2} {left right v : Nodes} {s s' : CUPState}
    (h : binaryOp op left right s = .ok v s') : ∃ rest, v.items = .tok op.loc :: rest := by
  unfold binaryOp fpushNode at h
  obtain ⟨l, s₁, hl, h⟩ := Run.bind_eq_ok.mp h
  have hl := (Run.lift_eq_ok.mp hl).1
  have hv := (Run.lift_eq_ok.mp h).1
  have hitems : l.items = .tok op.loc :: left.items := (vectorFpush_ok hl).2
  unfold pushVector at hv
  cases hb : right.buf with
  | null =>
    rw [hb] at hv
    cases hv
    exact ⟨_, hitems⟩
  | live =>
    rw [hb] at hv
    rw [(vectorPush_ok hv).2, hitems]
    exact ⟨_, rfl⟩
  | freed =>
    rw [hb] at hv
    dsimp only at hv
    cases hp : vectorPush 8 l right.items with
    | error e => rw [hp] at hv; cases hv
    | ok u => rw [hp] at hv; cases hv

/-! ## What the generator reads -/

/-- A completed run of `x` ends with the note of an assignment whose destination starts where
    `k` nodes are left. -/
def Notes {α : Type} (k : Nat) (x : Gen α) : Prop :=
  ∀ s, x.Sat s (fun _ s' => ∃ mid stop, s'.stores.getLast? = some (k, mid, stop)) fun _ _ => True

section Notes

variable {α β : Type} {k : Nat}

theorem Notes.after {x : Gen α} {f : α → Gen β} (hf : ∀ a, Notes k (f a)) : Notes k (x >>= f) := by
  intro s
  rw [Run.sat_bind]
  have hx : x.Sat s (fun _ _ => True) fun _ _ => True := by
    unfold Run.Sat
    split <;> trivial
  exact Run.sat_mono hx (fun a s' _ => hf a s') fun _ _ h => h

theorem notes_noteStore (mid : Nat) : Notes k (noteStore k mid) :=
  fun _ => ⟨mid, _, List.getLast?_concat⟩

theorem lookupVar_keeps (name : Bytes) : (lookupVar name).Keeps (·.range) fun _ => True := by
  refine Run.keeps_bind Run.keeps_get fun s => ?_
  refine Run.keeps_bind (Run.keeps_lift fun _ _ => trivial) fun v => ?_
  cases v with
  | none => exact Run.keeps_stop trivial
  | some v => exact Run.keeps_pure v

/-- `leaf_address` reads ahead only. -/
theorem leafAddress_keeps (L : Layout) : (leafAddress L).Keeps (·.range) fun _ => True := by
  refine Run.keeps_bind Run.keeps_get fun s => ?_
  split
  · exact Run.keeps_pure _
  · split
    · split
      · exact Run.keeps_pure _
      · exact Run.keeps_pure _
      · exact Run.keeps_stop trivial
    · split
      · exact Run.keeps_pure _
      · refine Run.keeps_bind (lookupVar_keeps _) fun v => ?_
        exact Run.keeps_bind (Run.keeps_modify fun _ => rfl) fun _ => Run.keeps_pure _
      · exact Run.keeps_stop trivial
    · exact Run.keeps_bind (lookupVar_keeps _) fun v => Run.keeps_pure _
    · exact Run.keeps_pure _

variable {rec : GenExpr} {treg : X64Reg} {s : GenState}

/-- The note of `x` is about a destination at the start of the range. -/
abbrev NotesHere {α : Type} (x : Gen α) : Prop :=
  ∀ s, x.Sat s (fun _ s' => ∃ mid stop, s'.stores.getLast? = some (s.range.length, mid, stop))
    fun _ _ => True

theorem notesHere_get {f : GenState → Gen α} (hf : ∀ s, Notes s.range.length (f s)) :
    NotesHere (Run.get >>= f) :=
  fun s => hf s s

theorem assignLeaf_notes (addr : Nat) : NotesHere (assignLeaf rec treg addr) := by
  refine notesHere_get fun s => Notes.after fun _ => Notes.after fun t => Notes.after fun _ => ?_
  dsimp only
  split
  · exact Notes.after fun _ => notes_noteStore _
  · exact Notes.after fun a => Notes.after fun _ => Notes.after fun _ => Notes.after fun _ =>
      notes_noteStore _

theorem assignTree_notes : NotesHere (assignTree rec treg) := by
  refine notesHere_get fun s => Notes.after fun _ => Notes.after fun t => ?_
  dsimp only
  split
  · exact Notes.after fun v => Notes.after fun _ => Notes.after fun _ => Notes.after fun _ =>
      Notes.after fun _ => notes_noteStore _
  · exact Notes.after fun a => Notes.after fun _ => Notes.after fun _ => Notes.after fun _ =>
      Notes.after fun _ => notes_noteStore _

/-- The destination is directly behind `T_EQ`. -/
theorem assignCase_notes (L : Layout) : NotesHere (assignCase L rec treg) := by
  intro s
  unfold assignCase
  rw [Run.sat_bind]
  refine Run.sat_mono (leafAddress_keeps L s) ?_ fun _ _ _ => trivial
  rintro leaf s' hs'
  have hs' : s'.range = s.range := hs'
  rw [← hs']
  cases leaf with
  | none => exact assignTree_notes s'
  | some leaf => exact assignLeaf_notes leaf.1 s'

end Notes

theorem getNodeToken_ok {s : GenState} {loc : Loc} {rest : List Node}
    (hs : s.range = .tok loc :: rest) : getNodeToken s = .ok loc.token { s with range := rest } := by
  unfold getNodeToken getNode
  simp only [Run.bind_apply, Run.get_apply, hs, Run.set_apply, Run.pure_apply]

theorem codegenExpr_tEq {L : Layout} {n : Nat} {treg : X64Reg} {sreg : Option X64Reg}
    {s s' : GenState} {loc : Loc} {rest : List Node} {res : Nat × Option Nat}
    (hs : s.range = .tok loc :: rest) (hloc : loc.token = .tEq)
    (h : codegenExpr L n treg sreg s = .ok res s') :
    ∃ mid stop, s'.stores.getLast? = some (rest.length, mid, stop) := by
  cases n with
  | zero => cases h
  | succ n =>
    have hrun : codegenExpr L (n + 1) treg sreg s =
        (do assignCase L (codegenExpr L n) treg; pure (0, none)) { s with range := rest } := by
      simp only [codegenExpr, Run.get_bind, Run.bind_of_ok (getNodeToken_ok hs), hloc]
    rw [hrun] at h
    obtain ⟨_, t, ht, h⟩ := Run.bind_eq_ok.mp h
    cases h
    exact (Run.sat_of_ok ht).mp (assignCase_notes L { s with range := rest })

/-! ## An assignment through the passes -/

theorem nextNode_ok {s : ResState} {n : Node} {rest : List Node} (hs : s.range = n :: rest) :
    nextNode s = .ok n { s with range := rest } := by
  unfold nextNode
  simp only [Run.bind_apply, Run.get_apply, hs, Run.set_apply, Run.pure_apply]

theorem inferTypes_tEq {H : ResHost} {n : Nat} {rtype array : Bool} {s s' : ResState} {loc : Loc}
    {rest : List Node} {value : CUPValue} (hs : s.range = .tok loc :: rest)
    (hloc : loc.token = .tEq) (h : inferTypes H n rtype array s = .ok value s') :
    ∃ w mid stop, s'.new = s.new ++ .tok loc :: w ∧
      s'.sides.getLast? = some (s.new.length + 1, mid, stop) ∧ s.new.length + 1 < mid := by
  cases n with
  | zero => cases h
  | succ n =>
    simp only [inferTypes, Run.bind_of_ok (nextNode_ok hs), hloc] at h
    obtain ⟨_, t, ht, h⟩ := Run.bind_eq_ok.mp h
    cases ht
    obtain ⟨w, hw, -⟩ := (Run.sat_of_ok h).mp (eqInfer_writes (inferTypes_solid H n) _)
    obtain ⟨mid, stop, hsides, hlt⟩ := eqInfer_sides (inferTypes_solid H n) h
    simp only [List.length_append, List.length_singleton] at hsides hlt
    exact ⟨w, mid, stop, by rw [hw]; simp, hsides, hlt⟩

theorem inferTypes_tAddeq {H : ResHost} {n : Nat} {rtype array : Bool} {s s' : ResState}
    {loc : Loc} {rest : List Node} {value : CUPValue} (hs : s.range = .tok loc :: rest)
    (hloc : loc.token = .tAddeq) (h : inferTypes H n rtype array s = .ok value s') :
    value = .error := by
  cases n with
  | zero => cases h
  | succ n =>
    simp only [inferTypes, Run.bind_of_ok (nextNode_ok hs), hloc] at h
    cases h
    rfl

/-- An assignment that goes through: the parser combines the nodes of its sides, the resolver
    accepts the tree, and the generator gets to the end of what the resolver wrote. -/
structure AssignmentRun (H : ResHost) (L : Layout) (op : Node2) (left right : Nodes) where
  source : CUPState
  source' : CUPState
  parsed : Nodes
  parses : combine op left right source = .ok parsed source'
  depth : Nat
  rtype : Bool
  array : Bool
  resolver : ResState
  resolver' : ResState
  unread : List Node
  reads : resolver.range = parsed.items ++ unread
  value : CUPValue
  infers : inferTypes H depth rtype array resolver = .ok value resolver'
  accepted : value ≠ .error
  nodes : List Node
  writes : resolver'.new = resolver.new ++ nodes
  genDepth : Nat
  treg : X64Reg
  sreg : Option X64Reg
  gen : GenState
  gen' : GenState
  behind : List Node
  range : gen.range = nodes ++ behind
  result : Nat × Option Nat
  generates : codegenExpr L genDepth treg sreg gen = .ok result gen'

namespace AssignmentRun

variable {H : ResHost} {L : Layout} {op : Node2} {left right : Nodes}
  (run : AssignmentRun H L op left right)

/-- The position in the new nodes at which `k` nodes are left to the generator. -/
def position (k : Nat) : Nat := run.resolver.new.length + (run.gen.range.length - k)

/-- Where the tree is that the generator takes as the destination. -/
def destination : Option (Nat × Nat) :=
  run.gen'.stores.getLast?.map fun (start, mid, _) => (run.position start, run.position mid)

/-- Where the tree is that it takes as the value to store. -/
def stored : Option (Nat × Nat) :=
  run.gen'.stores.getLast?.map fun (_, mid, stop) => (run.position mid, run.position stop)

/-- Where the resolver wrote the left side. Behind `T_EQ` the parser has it as the second tree
    (`eqOp_items`), behind `T_ADDEQ` as the first one. -/
def leftSide : Option (Nat × Nat) :=
  run.resolver'.sides.getLast?.map fun (start, mid, stop) =>
    if op.token = .tEq then (mid, stop) else (start, mid)

/-- Where the resolver wrote the right side. -/
def rightSide : Option (Nat × Nat) :=
  run.resolver'.sides.getLast?.map fun (start, mid, stop) =>
    if op.token = .tEq then (start, mid) else (mid, stop)

/-- The resolver starts at the node of the operator. -/
theorem parsed_head (hop : op.token = .tEq ∨ op.token = .tAddeq) :
    ∃ rest, run.resolver.range = .tok op.loc :: rest := by
  have hp : ∃ rest, run.parsed.items = .tok op.loc :: rest := by
    have h := run.parses
    unfold combine at h
    rcases hop with hop | hop
    · rw [hop] at h
      exact ⟨_, eqOp_items h⟩
    · rw [hop] at h
      exact binaryOp_head h
  obtain ⟨rest, hp⟩ := hp
  exact ⟨rest ++ run.unread, by rw [run.reads, hp, List.cons_append]⟩

/-- An assignment that the resolver accepts is a `=`. -/
theorem token_eq (run : AssignmentRun H L op left right) (hop : op.token = .tEq ∨ op.token = .tAddeq) : op.token = .tEq := by
  rcases hop with h | h
  · exact h
  · obtain ⟨rest, hr⟩ := run.parsed_head (.inr h)
    exact absurd (inferTypes_tAddeq hr h run.infers) run.accepted

theorem sides_eq (h : op.token = .tEq) : ∃ rest mid stop,
    run.nodes = .tok op.loc :: rest ∧
      run.resolver'.sides.getLast? = some (run.resolver.new.length + 1, mid, stop) ∧
      run.resolver.new.length + 1 < mid := by
  obtain ⟨rest, hr⟩ := run.parsed_head (.inl h)
  obtain ⟨w, mid, stop, hnew, hsides, hlt⟩ := inferTypes_tEq hr h run.infers
  refine ⟨w, mid, stop, ?_, hsides, hlt⟩
  rw [run.writes] at hnew
  exact List.append_cancel_left hnew

theorem stores_eq (h : op.token = .tEq) : ∃ mid stop,
    run.gen'.stores.getLast? = some (run.gen.range.length - 1, mid, stop) := by
  obtain ⟨rest, -, -, hn, -⟩ := run.sides_eq h
  have hg : run.gen.range = .tok op.loc :: (rest ++ run.behind) := by
    rw [run.range, hn, List.cons_append]
  obtain ⟨mid, stop, hs⟩ := codegenExpr_tEq hg h run.generates
  exact ⟨mid, stop, by rw [hs, hg]; rfl⟩

/-- The generator stores the value of the right side at the address of the left side. -/
def Agrees : Prop := run.destination = run.leftSide ∧ run.stored = run.rightSide

theorem destination_start (hop : op.token = .tEq ∨ op.token = .tAddeq) :
    run.destination.map (·.1) = some (run.resolver.new.length + 1) := by
  have h := run.token_eq hop
  obtain ⟨rest, -, -, hn, -⟩ := run.sides_eq h
  obtain ⟨mid, stop, hstores⟩ := run.stores_eq h
  have hlen : run.gen.range.length = (rest ++ run.behind).length + 1 := by
    rw [run.range, hn, List.cons_append, List.length_cons]
  have hstart : run.position (run.gen.range.length - 1) = run.resolver.new.length + 1 := by
    unfold position
    omega
  simp only [destination, hstores, Option.map_some, hstart]

/-- The generator reads the destination where the right side starts. -/
theorem destination_eq_rightSide (hop : op.token = .tEq ∨ op.token = .tAddeq) :
    run.destination.map (·.1) = run.rightSide.map (·.1) := by
  have h := run.token_eq hop
  obtain ⟨-, mid, stop, -, hsides, -⟩ := run.sides_eq h
  simp only [run.destination_start hop, rightSide, hsides, Option.map_some, if_pos h]

theorem leftSide_start (hop : op.token = .tEq ∨ op.token = .tAddeq) :
    ∃ mid, run.leftSide.map (·.1) = some mid ∧ run.resolver.new.length + 1 < mid := by
  have h := run.token_eq hop
  obtain ⟨-, mid, stop, -, hsides, hlt⟩ := run.sides_eq h
  exact ⟨mid, by simp only [leftSide, hsides, Option.map_some, if_pos h], hlt⟩

end AssignmentRun

/-- A state with the variable `x`. -/
def xState : CUPState := (putVar ⟨0, ascii ['x']⟩ (some (.base .typeInt)) 0 0 {}).state

def xEqOneOp : Node2 := ⟨⟨.tEq, 3, 1⟩, .value 0⟩

def xNodes : Nodes := ⟨.live, [.tok ⟨.tIdentifier, 1, 1⟩, .svalue ⟨1, ascii ['x']⟩], 64⟩

def oneNodes : Nodes := ⟨.live, [.tok ⟨.tNumber, 5, 1⟩, .value 1], 64⟩

/-- The node vector of `x = 1`. -/
def xEqOneNodes : Nodes :=
  ⟨.live, [.tok ⟨.tEq, 3, 1⟩, .tok ⟨.tNumber, 5, 1⟩, .value 1, .tok ⟨.tIdentifier, 1, 1⟩,
    .svalue ⟨1, ascii ['x']⟩], 64⟩

def xEqOneResolver : ResState := { cup := xState, range := xEqOneNodes.items }

def xEqOneGen : GenState := { cup := xState, range := xEqOneNodes.items }

def xEqOneRun : AssignmentRun bareResHost ⟨4096, 8192⟩ xEqOneOp xNodes oneNodes where
  source := xState
  source' := xState
  parsed := xEqOneNodes
  parses := by decide +kernel
  depth := 2
  rtype := false
  array := false
  resolver := xEqOneResolver
  resolver' := (inferTypes bareResHost 2 false false xEqOneResolver).state
  unread := []
  reads := by decide
  value := .value (some (.base .typeInt)) 1
  infers := by decide +kernel
  accepted := by decide
  nodes := xEqOneNodes.items
  writes := by decide +kernel
  genDepth := 2
  treg := .rax
  sreg := none
  gen := xEqOneGen
  gen' := (codegenExpr ⟨4096, 8192⟩ 2 .rax none xEqOneGen).state
  behind := []
  range := by decide
  result := (0, none)
  generates := by decide +kernel

end Cup
