/-
  Lexical scopes (`src/parser.c`). The parser enters and leaves scopes, visits scope 0 for a
  member name, and makes entries that are not there yet (`ScopeStep`). Over any sequence of such
  steps every scope lies inside a smaller one and the current scope is in the table, so
  `varLookup` ends at scope 0 and finds the nearest entry.

  `Moves x`: the code `x` is such a sequence and comes back to the scope it started in.
-/
import Cup.Lib.ParentArray
import Cup.Boundary
import Cup.VarTable
import Cup.Definitions
import Cup.Moduler

namespace Cup

open Lib (Stop Run)
open Lib.ParentArray (Rooted Path)
open Relation (ReflTransGen)

/-! ## Steps -/

/-- What scopes and lookups depend on: the scope table, the current scope, and the names and
    scopes of the variables with their map. -/
def CUPState.frame (s : CUPState) : (List Nat × Nat) × (Buf × Nat) × List (Bytes × Nat) × List Nat :=
  ((s.scopes, s.scope), (s.vars.buf, s.vars.capacity), s.vars.items.map CVariable.key, s.varsMap)

/-- What the parser does to scopes and variables. Only an entry that is not there is made; only
    a scope of the table is visited. -/
inductive ScopeStep : CUPState → CUPState → Prop where
  | enter {s s' : CUPState} {n : Nat} : scopeEnter s = .ok n s' → ScopeStep s s'
  | leave {s s' : CUPState} : scopeLeave s = .ok () s' → ScopeStep s s'
  | insert {s s' : CUPState} {name : CStr} {type : Option TRef} {value scope : Nat} :
      varFind s name.bytes scope = .ok none → putVar name type value scope s = .ok () s' →
      ScopeStep s s'
  | visit {s : CUPState} {k : Nat} : k < s.scopes.length → ScopeStep s { s with scope := k }
  | other {s s' : CUPState} : s'.frame = s.frame → ScopeStep s s'

abbrev ScopeSteps : CUPState → CUPState → Prop := ReflTransGen ScopeStep

/-- What the steps keep: every scope lies inside a smaller one, up to the root; the current
    scope is in the table; the variables can be searched and none stands twice in a scope. -/
structure ScopeInv (s : CUPState) : Prop extends SymInv s where
  rooted : Rooted s.scopes
  first : s.scopes[0]? = some sizeMax
  current : s.scope < s.scopes.length

theorem ScopeInv.ne_nil {s : CUPState} (h : ScopeInv s) : s.scopes ≠ [] := by
  intro hnil
  have hfirst := h.first
  rw [hnil] at hfirst
  cases hfirst

theorem ScopeInv.of_frame {s s' : CUPState} (h : ScopeInv s) (hf : s'.frame = s.frame) :
    ScopeInv s' := by
  have hscopes : s'.scopes = s.scopes := congrArg (fun f => f.1.1) hf
  have hscope : s'.scope = s.scope := congrArg (fun f => f.1.2) hf
  have hbuf : s'.vars.buf = s.vars.buf := congrArg (fun f => f.2.1.1) hf
  have hcap : s'.vars.capacity = s.vars.capacity := congrArg (fun f => f.2.1.2) hf
  have hkeys : s'.vars.items.map CVariable.key = s.vars.items.map CVariable.key :=
    congrArg (fun f => f.2.2.1) hf
  have hmap : s'.varsMap = s.varsMap := congrArg (fun f => f.2.2.2) hf
  exact
    { vars := h.vars.of_keys hbuf hcap hkeys hmap
      root := hscopes ▸ h.root
      nodup := hkeys ▸ h.nodup
      rooted := hscopes ▸ h.rooted
      first := hscopes ▸ h.first
      current := by
        rw [hscopes, hscope]
        exact h.current }

theorem scopeEnter_eq {s : CUPState} (h : s.scopes ≠ []) :
    scopeEnter s = .ok s.scopes.length
      { s with scopes := s.scopes ++ [s.scope], scope := s.scopes.length } := by
  unfold scopeEnter
  rw [Run.modify_bind, if_neg h]
  rfl

/-- A new scope lies inside the current one. -/
theorem ScopeInv.enter {s s' : CUPState} {n : Nat} (h : ScopeInv s)
    (hs : scopeEnter s = .ok n s') : ScopeInv s' := by
  have hsym := scopeEnter_inv h.toSymInv hs
  rw [scopeEnter_eq h.ne_nil] at hs
  cases hs
  exact
    { hsym with
      rooted := h.rooted.push h.current
      first := by
        dsimp only
        rw [List.getElem?_append_left (Nat.pos_of_ne_zero fun h0 => h.ne_nil
          (List.eq_nil_of_length_eq_zero h0))]
        exact h.first
      current := by simp }

theorem scopeLeave_eq_ok {s s' : CUPState} (hs : scopeLeave s = .ok () s') :
    ∃ parent, s.scopes[s.scope]? = some parent ∧ parent ≠ sizeMax ∧
      s' = { s with scope := parent } := by
  unfold scopeLeave at hs
  rw [Run.get_bind] at hs
  cases hp : s.scopes[s.scope]? with
  | none =>
    rw [hp] at hs
    cases hs
  | some parent =>
    rw [hp] at hs
    dsimp only at hs
    split at hs
    · cases hs
    · rename_i hmax
      cases hs
      exact ⟨parent, rfl, hmax, rfl⟩

/-- Behind a scope comes the one it lies inside of; the root is not left. -/
theorem ScopeInv.leave {s s' : CUPState} (h : ScopeInv s) (hs : scopeLeave s = .ok () s') :
    ScopeInv s' := by
  have hsym := scopeLeave_inv h.toSymInv hs
  obtain ⟨parent, hp, hmax, rfl⟩ := scopeLeave_eq_ok hs
  refine { hsym with rooted := h.rooted, first := h.first, current := ?_ }
  have hcur := h.current
  dsimp only
  cases hi : s.scope with
  | zero =>
    rw [hi, h.first] at hp
    exact absurd (Option.some.inj hp).symm hmax
  | succ i =>
    rw [hi] at hp
    have := h.rooted i parent hp
    omega

theorem putVar_eq_ok {s s' : CUPState} {name : CStr} {type : Option TRef} {value scope : Nat}
    (hs : putVar name type value scope s = .ok () s') :
    ∃ vars map, s' = { s with vars := vars, varsMap := map } := by
  unfold putVar at hs
  rw [Run.get_bind] at hs
  obtain ⟨r, s₁, hr, hs⟩ := Run.bind_eq_ok.mp hs
  obtain ⟨-, rfl⟩ := Run.lift_eq_ok.mp hr
  cases hs
  exact ⟨_, _, rfl⟩

theorem scopeStep_inv {s s' : CUPState} (h : ScopeInv s) (hs : ScopeStep s s') : ScopeInv s' := by
  cases hs with
  | enter hs => exact h.enter hs
  | leave hs => exact h.leave hs
  | insert hfind hput =>
    have hsym := h.toSymInv.putVar hfind hput
    obtain ⟨vars, map, rfl⟩ := putVar_eq_ok hput
    exact { hsym with rooted := h.rooted, first := h.first, current := h.current }
  | visit hk =>
    exact { h.toSymInv.congr rfl rfl rfl with rooted := h.rooted, first := h.first, current := hk }
  | other hf => exact h.of_frame hf

theorem scopeSteps_inv {s s' : CUPState} (h : ScopeInv s) (hs : ScopeSteps s s') : ScopeInv s' := by
  induction hs with
  | refl => exact h
  | tail _ hs ih => exact scopeStep_inv ih hs

/-- No scope is removed or moved. -/
theorem scopeSteps_extend {s s' : CUPState} (h : ScopeInv s) (hs : ScopeSteps s s') :
    s.scopes <+: s'.scopes := by
  induction hs with
  | refl => exact List.prefix_refl _
  | @tail t t' hst hs ih =>
    refine ih.trans ?_
    have ht := scopeSteps_inv h hst
    cases hs with
    | enter hs =>
      rw [scopeEnter_eq ht.ne_nil] at hs
      cases hs
      exact List.prefix_append _ _
    | leave hs =>
      obtain ⟨parent, -, -, rfl⟩ := scopeLeave_eq_ok hs
      exact List.prefix_refl _
    | insert _ hput =>
      obtain ⟨vars, map, rfl⟩ := putVar_eq_ok hput
      exact List.prefix_refl _
    | visit _ => exact List.prefix_refl _
    | other hf =>
      have hscopes : t'.scopes = t.scopes := congrArg (fun f => f.1.1) hf
      exact hscopes ▸ List.prefix_refl _

/-! ## Lookups -/

/-- `varLookup` goes along the way to scope 0, to the nearest scope with an entry. -/
theorem varLookup_path {s : CUPState} (h : ScopeInv s) (name : Bytes) {t : Nat} {l : List Nat}
    (hl : Path s.scopes t l) :
    varLookup s name t = .ok (l.findSome? fun u => oldest s.vars.items name u) := by
  have hloop : ∀ n, t < n → varLookupLoop s name n t =
      .ok (l.findSome? fun u => oldest s.vars.items name u) := by
    induction hl with
    | root =>
      intro n hn
      obtain ⟨n, rfl⟩ : ∃ k, n = k + 1 := ⟨n - 1, by omega⟩
      unfold varLookupLoop
      rw [varFind_oldest h.vars]
      cases ho : oldest s.vars.items name 0 with
      | some v => simp [bind, Except.bind, ho]
      | none => simp [bind, Except.bind, ho]
    | @step i p l hp _ ih =>
      intro n hn
      obtain ⟨n, rfl⟩ : ∃ k, n = k + 1 := ⟨n - 1, by omega⟩
      have hle := h.rooted i p hp
      unfold varLookupLoop
      rw [varFind_oldest h.vars]
      cases ho : oldest s.vars.items name (i + 1) with
      | some v => simp [bind, Except.bind, ho]
      | none =>
        simp only [bind, Except.bind, Nat.succ_ne_zero, if_false, hp, List.findSome?_cons, ho]
        exact ih n (by omega)
  exact hloop (t + 1) (Nat.lt_succ_self t)

/-! ## Runs

`Idle`, `Moves` and `Leaves` say what code does to scopes and variables; each has a rule for a
sequence. -/

section Rules

variable {α β : Type}

/-- `x` leaves scopes and variables alone. -/
abbrev Idle (x : Comp α) : Prop := x.Keeps CUPState.frame fun _ => True

/-- `x` takes steps, and when it returns it is back in its scope. -/
def Moves (x : Comp α) : Prop :=
  ∀ s, ScopeInv s → x.Sat s (fun _ s' => ScopeSteps s s' ∧ s'.scope = s.scope)
    fun _ s' => ScopeSteps s s'

/-- `x` takes steps, and when it returns it is in the scope around its own. -/
def Leaves (x : Comp α) : Prop :=
  ∀ s p, ScopeInv s → s.scopes[s.scope]? = some p →
    x.Sat s (fun _ s' => ScopeSteps s s' ∧ s'.scope = p) fun _ s' => ScopeSteps s s'

theorem idle_lift (x : Except Stop α) : Idle (Run.lift x) := Run.keeps_lift fun _ _ => trivial

theorem idle_stop (e : Stop) : Idle (Run.stop e : Comp α) := Run.keeps_stop trivial

theorem idle_exit (n : Nat) : Idle (exit n : Comp α) := idle_stop _

theorem idle_note (e : Event) : Idle (note e) := fun _ => rfl

theorem idle_noteGap (g : Gap) : Idle (noteGap g) := fun _ => rfl

theorem idle_of_typesOnly {x : Comp α} (h : TypesOnly x) : Idle x := by
  intro s
  exact Run.sat_mono (h.map CUPState.frame s) (fun _ _ h => h) fun _ _ h => ⟨h.1, trivial⟩

theorem Idle.moves {x : Comp α} (h : Idle x) : Moves x := by
  intro s _
  refine Run.sat_mono (h s) (fun a s' hf => ?_) fun e s' hf => .single (.other hf.1)
  exact ⟨.single (.other hf), congrArg (fun f => f.1.2) hf⟩

theorem moves_pure (a : α) : Moves (pure a) := Idle.moves (Run.keeps_pure a)

theorem moves_bind {x : Comp α} {f : α → Comp β} (hx : Moves x) (hf : ∀ a, Moves (f a)) :
    Moves (x >>= f) := by
  intro s hs
  rw [Run.sat_bind]
  refine Run.sat_mono (hx s hs) ?_ fun _ _ h => h
  rintro a s' ⟨hsteps, hscope⟩
  refine Run.sat_mono (hf a s' (scopeSteps_inv hs hsteps)) ?_ fun _ _ h => hsteps.trans h
  rintro b s'' ⟨hsteps', hscope'⟩
  exact ⟨hsteps.trans hsteps', hscope'.trans hscope⟩

theorem Idle.moves_bind {x : Comp α} {f : α → Comp β} (hx : Idle x) (hf : ∀ a, Moves (f a)) :
    Moves (x >>= f) :=
  Cup.moves_bind hx.moves hf

theorem leaves_bind {x : Comp α} {f : α → Comp β} (hx : Moves x) (hf : ∀ a, Leaves (f a)) :
    Leaves (x >>= f) := by
  intro s p hs hp
  rw [Run.sat_bind]
  refine Run.sat_mono (hx s hs) ?_ fun _ _ h => h
  rintro a s' ⟨hsteps, hscope⟩
  obtain ⟨more, hmore⟩ := scopeSteps_extend hs hsteps
  have hp' : s'.scopes[s'.scope]? = some p := by
    rw [hscope, ← hmore, List.getElem?_append_left hs.current]
    exact hp
  refine Run.sat_mono (hf a s' p (scopeSteps_inv hs hsteps) hp') ?_ fun _ _ h => hsteps.trans h
  rintro b s'' ⟨hsteps', hscope'⟩
  exact ⟨hsteps.trans hsteps', hscope'⟩

theorem leaves_scopeLeave (a : α) : Leaves (scopeLeave >>= fun _ => pure a) := by
  intro s p _ hp
  rw [Run.sat_bind]
  cases hl : scopeLeave s with
  | stop e s' =>
    have hs' : s' = s := by
      unfold scopeLeave at hl
      rw [Run.get_bind, hp] at hl
      dsimp only at hl
      split at hl
      · exact (Lib.Res.stop.inj hl).2.symm
      · cases hl
    subst hs'
    exact (Run.sat_of_stop hl).mpr .refl
  | ok u s' =>
    rw [Run.sat_of_ok hl]
    refine ⟨.single (.leave hl), ?_⟩
    obtain ⟨parent, hparent, -, rfl⟩ := scopeLeave_eq_ok hl
    rw [hp] at hparent
    exact (Option.some.inj hparent).symm

/-- Code in a scope of its own. -/
theorem moves_enter {f : Nat → Comp β} (hf : ∀ n, Leaves (f n)) : Moves (scopeEnter >>= f) := by
  intro s hs
  have henter := scopeEnter_eq hs.ne_nil
  have hstep : ScopeStep s { s with scopes := s.scopes ++ [s.scope], scope := s.scopes.length } :=
    .enter henter
  rw [Run.sat_bind, Run.sat_of_ok henter]
  refine Run.sat_mono (hf _ _ s.scope (scopeStep_inv hs hstep) (by simp)) ?_ fun _ _ h => .head hstep h
  rintro b s' ⟨hsteps, hscope⟩
  exact ⟨.head hstep hsteps, hscope⟩

/-- Code in scope 0, and back. -/
theorem moves_visit {x : Comp α} {s : CUPState} (hs : ScopeInv s) (hx : Moves x) :
    Run.Sat ((Run.modify fun t => { t with scope := 0 }) >>= fun _ => x >>= fun a =>
        (Run.modify fun t => { t with scope := s.scope }) >>= fun _ => pure a) s
      (fun _ s' => ScopeSteps s s' ∧ s'.scope = s.scope) fun _ s' => ScopeSteps s s' := by
  have hpos : 0 < s.scopes.length := Nat.lt_of_le_of_lt (Nat.zero_le _) hs.current
  have hstep : ScopeStep s { s with scope := 0 } := .visit hpos
  rw [Run.sat_bind, Run.sat_modify, Run.sat_bind]
  refine Run.sat_mono (hx _ (scopeStep_inv hs hstep)) ?_ fun _ _ h => .head hstep h
  rintro a s' ⟨hsteps, -⟩
  have hlen : s.scopes.length ≤ s'.scopes.length :=
    (scopeSteps_extend (scopeStep_inv hs hstep) hsteps).length_le
  have hback : ScopeStep s' { s' with scope := s.scope } :=
    .visit (Nat.lt_of_lt_of_le hs.current hlen)
  exact ⟨.head hstep (hsteps.tail hback), rfl⟩

end Rules

/-! ## Single steps of the parser -/

theorem idle_getToken (space : Bool) : Idle (getToken space) := by
  intro s
  unfold Run.Sat getToken
  dsimp only
  cases catchUp ((s.priv.getD s.input).length + 1) (s.priv.getD s.input) s.input s.nodes.loc with
  | error e => exact ⟨rfl, trivial⟩
  | ok loc =>
    dsimp only
    generalize hs' : ({ s with
      input := s.input.dropWhile (isBlank space)
      priv := some (s.input.dropWhile (isBlank space))
      nodes := _ } : CUPState) = s'
    have htables := (scanToken_scanned s' (s.input.dropWhile (isBlank space))).tables
    have hframe : s'.frame = s.frame := by
      rw [← hs']
      rfl
    rw [← hframe]
    exact congrArg (fun t : Tables => ((t.scopes, t.scope), (t.vars.buf, t.vars.capacity),
      t.vars.items.map CVariable.key, t.varsMap)) htables

theorem idle_pushLoc (v : Nodes) (loc : Loc) : Idle (pushLoc v loc) := idle_lift _

theorem idle_pushNode2 (v : Nodes) (n : Node2) : Idle (pushNode2 v n) := idle_lift _

theorem idle_fpushNode (v : Nodes) (n : Node) : Idle (fpushNode v n) := idle_lift _

theorem idle_noteMissing (v : Nodes) : Idle (noteMissing v) := by
  unfold noteMissing
  split
  · exact idle_note _
  · exact Run.keeps_pure _

theorem idle_splice (dest src : Nodes) : Idle (splice dest src) :=
  Run.keeps_bind (idle_noteMissing _) fun _ => idle_lift _

theorem idle_headToken (v : Nodes) : Idle (headToken v) := by
  unfold headToken
  refine Run.keeps_bind (idle_lift _) fun node => ?_
  split
  · exact Run.keeps_pure _
  · exact idle_stop _

theorem idle_payloadValue (v : Nodes) : Idle (payloadValue v) := by
  unfold payloadValue
  refine Run.keeps_bind (idle_lift _) fun node => ?_
  split
  · exact Run.keeps_pure _
  · exact idle_stop _

theorem idle_operandToken (v : Nodes) : Idle (operandToken v) := by
  unfold operandToken
  split
  · exact Run.keeps_bind (idle_noteGap _) fun _ => idle_headToken _
  · exact idle_headToken _

theorem idle_isList (v : Nodes) : Idle (isList v) := by
  unfold isList
  split
  · exact Run.keeps_pure _
  · exact Run.keeps_bind (idle_headToken _) fun _ => Run.keeps_pure _

theorem idle_expectAndNext (t : CTType) : Idle (expectAndNext t) := by
  unfold expectAndNext
  refine Run.keeps_bind Run.keeps_get fun s => ?_
  split
  · exact idle_exit _
  · exact idle_getToken _

theorem idle_importModule (host : Host) : Idle (importModule host) := by
  unfold importModule
  refine Run.keeps_bind Run.keeps_get fun s => ?_
  dsimp only
  split
  · exact idle_exit _
  · exact Run.keeps_pure _

theorem idle_externalModule (host : Host) : Idle (externalModule host) := by
  intro s
  unfold externalModule
  rw [Run.sat_bind, Run.sat_get]
  split
  · exact Run.keeps_bind (f := CUPState.frame) (idle_noteGap _) (fun _ => idle_stop _) s
  · dsimp only
    split
    · exact Run.keeps_bind (f := CUPState.frame) (idle_noteGap _) (fun _ => idle_stop _) s
    · split
      · exact ⟨rfl, trivial⟩
      · rfl

theorem idle_functionType (host : Host) (argc : Nat) : Idle (functionType host argc) := by
  unfold functionType functionSlots
  refine Run.keeps_bind ?_ fun slots => idle_of_typesOnly (cupType_keeps _ _ _)
  split
  · exact idle_exit _
  · exact Run.keeps_bind (Run.keeps_modify fun _ => rfl) fun _ => Run.keeps_gets _

/-- A variable gets a type; its name and its scope stay. -/
theorem idle_setVarType (name : CStr) (type : TRef) : Idle (setVarType name type) := by
  intro s
  unfold setVarType
  rw [Run.sat_bind, Run.sat_get, Run.sat_bind, Run.sat_lift]
  cases varLookup s name.bytes s.scope with
  | error e => exact ⟨rfl, trivial⟩
  | ok r =>
    cases r with
    | none => exact ⟨rfl, trivial⟩
    | some v =>
      dsimp only
      rw [Run.sat_bind, Run.sat_lift]
      unfold CVec.at
      cases hbuf : s.vars.buf <;> cases hv : s.vars.items[v]?
      case live.some var =>
        dsimp only
        rw [Run.sat_set]
        have hkeys : (s.vars.items.set v { var with typee := some type }).map CVariable.key =
            s.vars.items.map CVariable.key := by
          rw [List.map_set]
          have hkey : (s.vars.items.map CVariable.key)[v]? = some var.key := by
            rw [List.getElem?_map, hv]
            rfl
          obtain ⟨hlt, hget⟩ := List.getElem?_eq_some_iff.mp hkey
          change (s.vars.items.map CVariable.key).set v var.key = _
          rw [← hget, List.set_getElem_self]
        unfold CUPState.frame
        dsimp only
        rw [hkeys, hbuf]
      all_goals exact ⟨rfl, trivial⟩

/-- An identifier that no scope around it knows gets its entry in the current scope. -/
theorem declare_moves (name : CStr) : Moves (declare name) := by
  intro s hs
  unfold declare
  rw [Run.sat_bind, Run.sat_get, Run.sat_bind, Run.sat_lift]
  cases hl : varLookup s name.bytes s.scope with
  | error e => exact .refl
  | ok r =>
    cases r with
    | some v => exact (idle_note _).moves s hs
    | none =>
      obtain ⟨vars', map', hput, -, -⟩ := putVar_spec hs.vars name none 0 s.scope
      have hstep := ScopeStep.insert (varFind_of_varLookup hl) hput
      dsimp only
      rw [Run.sat_bind, Run.sat_of_ok hput]
      exact ⟨.tail (.single hstep) (.other rfl), rfl⟩

/-- A symbol of a library gets its entry in scope 0. -/
theorem externalSymbol_moves (host : Host) (name : CStr) (sig : Nat) :
    Moves (externalSymbol host name sig) := by
  unfold externalSymbol
  refine Idle.moves_bind Run.keeps_get fun s => ?_
  split
  · exact (idle_exit _).moves
  · split
    · exact (idle_noteGap _).moves_bind fun _ => (idle_stop _).moves
    · refine (idle_of_typesOnly (cupTypeParse_keeps _)).moves_bind fun type => ?_
      intro t ht
      rw [Run.sat_bind, Run.sat_get, Run.sat_bind, Run.sat_lift]
      cases hl : varLookup t name.bytes 1 with
      | error e => exact .refl
      | ok r =>
        cases r with
        | some v => exact .refl
        | none =>
          rename_i fn _ _ _ _
          obtain ⟨vars', map', hput, -, -⟩ := putVar_spec ht.vars name type fn 0
          have hstep := ScopeStep.insert (varFind_root ht.root hl) hput
          dsimp only
          rw [Run.sat_of_ok hput]
          exact ⟨.single hstep, rfl⟩

/-! ## Operands -/

section Operands

variable {host : Host} {rec : Nat → Comp Nodes}

theorem statementWith_moves (hrec : ∀ m, Moves (rec m)) : Moves (statementWith rec) := by
  unfold statementWith
  refine moves_bind (hrec _) fun n => ?_
  refine Idle.moves_bind Run.keeps_get fun s => ?_
  split
  · exact (idle_getToken _).moves_bind fun _ => moves_pure _
  · exact moves_pure _

theorem importCase_moves (host : Host) : Moves (importCase host) := by
  unfold importCase
  refine (idle_getToken _).moves_bind fun _ => ?_
  refine Idle.moves_bind Run.keeps_get fun s => ?_
  split
  · exact moves_pure _
  · refine (idle_importModule host).moves_bind fun _ => ?_
    exact (idle_getToken _).moves_bind fun _ => moves_pure _

theorem externalLoop_moves (host : Host) (n : Nat) : Moves (externalLoop host n) := by
  induction n with
  | zero => exact (idle_stop _).moves
  | succ n ih =>
    unfold externalLoop
    refine Idle.moves_bind Run.keeps_get fun s => ?_
    split
    · refine (idle_getToken _).moves_bind fun _ => ?_
      refine Idle.moves_bind Run.keeps_get fun s' => ?_
      split
      · exact moves_pure _
      · refine moves_bind (externalSymbol_moves host _ _) fun _ => ?_
        exact (idle_getToken _).moves_bind fun _ => ih
    · exact moves_pure _

theorem externalCase_moves (host : Host) (n : Nat) : Moves (externalCase host n) := by
  unfold externalCase
  refine (idle_getToken _).moves_bind fun _ => ?_
  refine Idle.moves_bind Run.keeps_get fun s => ?_
  split
  · exact moves_pure _
  · refine (idle_externalModule host).moves_bind fun _ => ?_
    refine (idle_getToken _).moves_bind fun _ => ?_
    exact moves_bind (externalLoop_moves host n) fun _ => moves_pure _

theorem declareFunction_moves (name : CStr) : Moves (declareFunction name) := by
  unfold declareFunction
  refine Idle.moves_bind Run.keeps_get fun s => ?_
  refine (idle_lift _).moves_bind fun r => ?_
  split
  · exact declare_moves name
  · refine (idle_lift _).moves_bind fun var => ?_
    split
    · exact (idle_exit _).moves
    · exact declare_moves name

theorem idle_functionHeader (left args : Nodes) (comma : Node2) :
    Idle (functionHeader left args comma) := by
  unfold functionHeader
  refine Run.keeps_bind (idle_isList _) fun list => ?_
  split
  · exact Run.keeps_bind (idle_payloadValue _) fun _ => Run.keeps_pure _
  · exact Run.keeps_bind (idle_pushNode2 _ _) fun _ => Run.keeps_pure _

/-- The parameters and the body stand in the scope of the function. -/
theorem functionBody_moves (hrec : ∀ m, Moves (rec m)) (left : Nodes) (name : CStr) :
    Moves (functionBody host rec left name) := by
  unfold functionBody
  refine moves_bind (declareFunction_moves name) fun _ => ?_
  refine (idle_getToken _).moves_bind fun _ => ?_
  refine moves_enter fun _ => ?_
  refine leaves_bind (Idle.moves Run.keeps_get) fun s => ?_
  refine leaves_bind (statementWith_moves hrec) fun args => ?_
  refine leaves_bind (idle_functionHeader _ _ _).moves fun header => ?_
  refine leaves_bind (idle_functionType host _).moves fun type => ?_
  refine leaves_bind (idle_setVarType name type).moves fun _ => ?_
  refine leaves_bind (idle_splice _ _).moves fun left => ?_
  refine leaves_bind (statementWith_moves hrec) fun block => ?_
  exact leaves_bind (idle_splice _ _).moves fun left => leaves_scopeLeave left

theorem functionCase_moves (hrec : ∀ m, Moves (rec m)) (n : Node2) :
    Moves (functionCase host rec n) := by
  unfold functionCase
  refine (idle_getToken _).moves_bind fun _ => ?_
  refine Idle.moves_bind Run.keeps_get fun s => ?_
  dsimp only
  split
  · exact (idle_getToken _).moves_bind fun _ => moves_pure _
  · split
    · refine (idle_pushLoc _ _).moves_bind fun left => ?_
      refine (idle_pushNode2 _ _).moves_bind fun left => ?_
      split
      · exact functionBody_moves hrec left _
      · exact (idle_stop _).moves
    · exact moves_pure _

theorem whileCase_moves (hrec : ∀ m, Moves (rec m)) (n : Node2) : Moves (whileCase rec n) := by
  unfold whileCase
  refine (idle_pushLoc _ _).moves_bind fun left => ?_
  refine (idle_getToken _).moves_bind fun _ => ?_
  refine moves_bind (statementWith_moves hrec) fun cond => ?_
  refine (idle_splice _ _).moves_bind fun left => ?_
  exact moves_bind (statementWith_moves hrec) fun body => (idle_splice _ _).moves

theorem returnCase_moves (hrec : ∀ m, Moves (rec m)) (n : Node2) : Moves (returnCase rec n) := by
  unfold returnCase
  refine (idle_pushLoc _ _).moves_bind fun left => ?_
  refine (idle_getToken _).moves_bind fun _ => ?_
  exact moves_bind (statementWith_moves hrec) fun value => (idle_splice _ _).moves

theorem unaryCase_moves (hrec : ∀ m, Moves (rec m)) (n : Node2) : Moves (unaryCase rec n) := by
  unfold unaryCase
  refine Idle.moves_bind (Run.keeps_modify fun _ => rfl) fun _ => ?_
  refine (idle_pushLoc _ _).moves_bind fun left => ?_
  refine (idle_getToken _).moves_bind fun _ => ?_
  exact moves_bind (hrec _) fun value => (idle_splice _ _).moves

theorem identifierCase_moves (n : Node2) : Moves (identifierCase n) := by
  unfold identifierCase
  refine (idle_pushNode2 _ _).moves_bind fun left => ?_
  split
  · refine Idle.moves_bind Run.keeps_get fun s => ?_
    split
    · refine moves_bind (declare_moves _) fun _ => ?_
      exact (idle_getToken _).moves_bind fun _ => moves_pure _
    · exact (idle_getToken _).moves_bind fun _ => moves_pure _
  · exact (idle_stop _).moves

theorem numberCase_moves (n : Node2) : Moves (numberCase n) := by
  unfold numberCase
  refine (idle_getToken _).moves_bind fun _ => ?_
  refine Idle.moves_bind Run.keeps_get fun s => ?_
  split
  · refine (idle_getToken _).moves_bind fun _ => ?_
    refine Idle.moves_bind Run.keeps_get fun s' => ?_
    dsimp only
    split
    · exact (idle_getToken _).moves_bind fun _ => (idle_pushNode2 _ _).moves
    · exact (idle_pushNode2 _ _).moves
  · exact (idle_pushNode2 _ _).moves

theorem leafCase_moves (n : Node2) : Moves (leafCase n) :=
  (idle_pushLoc _ _).moves_bind fun _ => (idle_getToken _).moves_bind fun _ => moves_pure _

theorem stringCase_moves (n : Node2) : Moves (stringCase n) :=
  (idle_pushNode2 _ _).moves_bind fun _ => (idle_getToken _).moves_bind fun _ => moves_pure _

theorem bracketCase_moves (hrec : ∀ m, Moves (rec m)) : Moves (bracketCase rec) := by
  unfold bracketCase
  refine (idle_getToken _).moves_bind fun _ => ?_
  refine Idle.moves_bind Run.keeps_get fun s => ?_
  dsimp only
  split
  · refine moves_bind (statementWith_moves hrec) fun left => ?_
    exact (idle_expectAndNext _).moves_bind fun _ => moves_pure _
  · refine (idle_pushNode2 _ _).moves_bind fun left => ?_
    exact (idle_getToken _).moves_bind fun _ => moves_pure _

theorem idle_pushStatement (left block : Nodes) : Idle (pushStatement left block) := by
  unfold pushStatement
  split
  · exact Run.keeps_bind (idle_payloadValue _) fun _ => idle_lift _
  · exact idle_lift _

theorem blockLoop_moves (hrec : ∀ m, Moves (rec m)) (n : Nat) (left : Nodes) :
    Moves (blockLoop rec n left) := by
  induction n generalizing left with
  | zero => exact (idle_stop _).moves
  | succ n ih =>
    unfold blockLoop
    refine Idle.moves_bind Run.keeps_get fun s => ?_
    split
    · exact moves_pure _
    · refine moves_bind (statementWith_moves hrec) fun block => ?_
      exact (idle_pushStatement _ _).moves_bind fun left => ih left

/-- The statements of a block stand in a scope of their own. -/
theorem blockCase_moves (hrec : ∀ m, Moves (rec m)) (k : Nat) (n : Node2) :
    Moves (blockCase k rec n) := by
  unfold blockCase
  refine Idle.moves_bind (Run.keeps_modify fun _ => rfl) fun _ => ?_
  refine (idle_pushNode2 _ _).moves_bind fun left => ?_
  refine (idle_getToken _).moves_bind fun _ => ?_
  refine moves_enter fun _ => ?_
  refine leaves_bind (blockLoop_moves hrec k left) fun left => ?_
  exact leaves_bind (idle_getToken _).moves fun _ => leaves_scopeLeave left

theorem arrayElements_moves (hrec : ∀ m, Moves (rec m)) (left : Nodes) (n : Node2) :
    Moves (arrayElements rec left n) := by
  unfold arrayElements
  refine Idle.moves_bind Run.keeps_get fun s => ?_
  split
  · refine moves_bind (hrec _) fun body => ?_
    split
    · exact (idle_pushNode2 _ _).moves
    · refine (idle_isList _).moves_bind fun list => ?_
      split
      · exact (idle_payloadValue _).moves_bind fun len => (idle_lift _).moves
      · exact (idle_note _).moves_bind fun _ => (idle_lift _).moves
  · exact (idle_pushNode2 _ _).moves

theorem arrayCase_moves (hrec : ∀ m, Moves (rec m)) (n : Node2) : Moves (arrayCase rec n) := by
  unfold arrayCase
  refine Idle.moves_bind (Run.keeps_modify fun _ => rfl) fun _ => ?_
  refine (idle_pushNode2 _ _).moves_bind fun left => ?_
  refine (idle_getToken _).moves_bind fun _ => ?_
  refine moves_bind (arrayElements_moves hrec left n) fun left => ?_
  refine (idle_payloadValue _).moves_bind fun len => ?_
  refine Idle.moves_bind Run.keeps_get fun s => ?_
  refine Idle.moves_bind (Run.keeps_modify fun _ => rfl) fun _ => ?_
  refine (idle_note _).moves_bind fun _ => ?_
  exact (idle_expectAndNext _).moves_bind fun _ => moves_pure _

theorem ifCase_moves (hrec : ∀ m, Moves (rec m)) (n : Node2) : Moves (ifCase rec n) := by
  unfold ifCase
  refine (idle_pushLoc _ _).moves_bind fun left => ?_
  refine (idle_getToken _).moves_bind fun _ => ?_
  refine moves_bind (statementWith_moves hrec) fun cond => ?_
  refine (idle_splice _ _).moves_bind fun left => ?_
  refine moves_bind (statementWith_moves hrec) fun body => ?_
  refine (idle_splice _ _).moves_bind fun left => ?_
  refine Idle.moves_bind Run.keeps_get fun s => ?_
  dsimp only
  split
  · refine (idle_fpushNode _ _).moves_bind fun left => ?_
    refine (idle_getToken _).moves_bind fun _ => ?_
    exact moves_bind (statementWith_moves hrec) fun other => (idle_splice _ _).moves
  · exact moves_pure _

theorem operand_moves (hrec : ∀ m, Moves (rec m)) (k : Nat) (n : Node2) :
    Moves (operand host k rec n) := by
  have hpair {x : Comp Nodes} (hx : Moves x) (b : Bool) : Moves (x >>= fun v => pure (v, b)) :=
    moves_bind hx fun _ => moves_pure _
  unfold operand
  split
  · exact hpair (importCase_moves host) _
  · exact hpair (externalCase_moves host k) _
  · exact hpair (functionCase_moves hrec n) _
  · exact hpair (leafCase_moves n) _
  · exact hpair (leafCase_moves n) _
  · exact hpair (leafCase_moves n) _
  · exact hpair (leafCase_moves n) _
  · exact hpair (whileCase_moves hrec n) _
  · exact hpair (returnCase_moves hrec n) _
  · exact hpair (unaryCase_moves hrec _) _
  · exact hpair (unaryCase_moves hrec n) _
  · exact hpair (identifierCase_moves n) _
  · exact hpair (stringCase_moves n) _
  · exact hpair (numberCase_moves n) _
  · exact hpair (bracketCase_moves hrec) _
  · exact hpair (blockCase_moves hrec k _) _
  · exact hpair (arrayCase_moves hrec _) _
  · exact hpair (ifCase_moves hrec n) _
  · exact (idle_stop _).moves
  · exact (idle_exit _).moves

end Operands

/-! ## Operators -/

section Operators

variable {host : Host} {rec : Nat → Comp Nodes}

/-- A member name is read in scope 0. -/
theorem rightOperand_moves (hrec : ∀ m, Moves (rec m)) (op : Node2) :
    Moves (rightOperand rec op) := by
  intro s hs
  unfold rightOperand
  rw [Run.sat_bind, Run.sat_get]
  dsimp only
  split
  · exact (idle_pushNode2 _ _).moves s hs
  · generalize (if op.token = .tCall ∨ op.token = .tOsb then cupDefPower
      else getPower op.token) = power
    split
    · exact moves_visit hs (hrec 16)
    · exact hrec _ s hs

theorem idle_binaryOp (op : Node2) (left right : Nodes) : Idle (binaryOp op left right) :=
  Run.keeps_bind (idle_fpushNode _ _) fun _ => idle_lift _

theorem idle_indexOp (op : Node2) (left right : Nodes) : Idle (indexOp op left right) := by
  unfold indexOp
  refine Run.keeps_bind Run.keeps_get fun s => ?_
  split
  · exact idle_exit _
  · exact Run.keeps_bind (idle_getToken _) fun _ => idle_binaryOp _ _ _

theorem idle_eqOp (op : Node2) (left right : Nodes) : Idle (eqOp op left right) :=
  Run.keeps_bind (idle_fpushNode _ _) fun _ => idle_lift _

theorem idle_callOp (op : Node2) (left right : Nodes) : Idle (callOp op left right) := by
  unfold callOp
  refine Run.keeps_bind Run.keeps_get fun s => ?_
  split
  · exact idle_exit _
  · refine Run.keeps_bind (idle_getToken _) fun _ => ?_
    refine Run.keeps_bind (idle_fpushNode _ _) fun left => ?_
    refine Run.keeps_bind (idle_operandToken _) fun t => ?_
    split
    · exact Run.keeps_bind (idle_pushNode2 _ _) fun _ => idle_lift _
    · exact idle_lift _

theorem idle_commaOp (op : Node2) (left right : Nodes) : Idle (commaOp op left right) := by
  unfold commaOp
  refine Run.keeps_bind (idle_operandToken _) fun t => ?_
  split
  · refine Run.keeps_bind (idle_payloadValue _) fun n => ?_
    refine Run.keeps_bind (idle_fpushNode _ _) fun left => ?_
    refine Run.keeps_bind (idle_fpushNode _ _) fun left => ?_
    refine Run.keeps_bind (idle_lift _) fun right => ?_
    split
    · exact Run.keeps_bind (idle_note _) fun _ => idle_lift _
    · exact idle_lift _
  · refine Run.keeps_bind (idle_fpushNode _ _) fun left => ?_
    exact Run.keeps_bind (idle_fpushNode _ _) fun left => idle_lift _

theorem idle_combine (op : Node2) (left right : Nodes) : Idle (combine op left right) := by
  unfold combine
  split
  · exact idle_callOp _ _ _
  · exact idle_eqOp _ _ _
  · exact idle_commaOp _ _ _
  · exact idle_indexOp _ _ _
  all_goals first | exact idle_binaryOp _ _ _ | exact idle_exit _

theorem operatorLoop_moves (hrec : ∀ m, Moves (rec m)) (mpower n : Nat) (left : Nodes) :
    Moves (operatorLoop rec mpower n left) := by
  induction n generalizing left with
  | zero => exact (idle_stop _).moves
  | succ n ih =>
    unfold operatorLoop
    refine Idle.moves_bind Run.keeps_get fun s => ?_
    dsimp only
    split
    · exact (idle_exit _).moves
    · split
      · exact moves_pure _
      · refine (idle_noteMissing _).moves_bind fun _ => ?_
        refine (idle_getToken _).moves_bind fun _ => ?_
        refine moves_bind (rightOperand_moves hrec _) fun right => ?_
        refine (idle_noteMissing _).moves_bind fun _ => ?_
        exact (idle_combine _ _ _).moves_bind fun left => ih left

end Operators

/-! ## The parser -/

/-- Every call of `primary` comes back to its scope. -/
theorem primaryFuel_moves (host : Host) (n mpower : Nat) : Moves (primaryFuel host n mpower) := by
  induction n generalizing mpower with
  | zero => exact (idle_stop _).moves
  | succ n ih =>
    unfold primaryFuel
    refine Idle.moves_bind Run.keeps_get fun s => ?_
    refine moves_bind (operand_moves ih n _) fun r => ?_
    dsimp only
    split
    · exact moves_pure _
    · exact operatorLoop_moves ih mpower n _

theorem primary_moves (host : Host) (mpower : Nat) : Moves (primary host mpower) :=
  Idle.moves_bind Run.keeps_get fun _ => primaryFuel_moves host _ mpower

theorem statement_moves (host : Host) : Moves (statement host) :=
  statementWith_moves (primary_moves host)

theorem moduleLoop_moves (host : Host) (n : Nat) (nodes : Nodes) :
    Moves (moduleLoop host n nodes) := by
  induction n generalizing nodes with
  | zero => exact (idle_stop _).moves
  | succ n ih =>
    unfold moduleLoop
    refine Idle.moves_bind Run.keeps_get fun s => ?_
    split
    · exact moves_pure _
    · refine moves_bind (statement_moves host) fun block => ?_
      exact (idle_pushStatement _ _).moves_bind fun nodes => ih nodes

theorem parseNodes_moves (host : Host) (text : Bytes) : Moves (parseNodes host text) := by
  unfold parseNodes
  refine Idle.moves_bind (Run.keeps_modify fun _ => rfl) fun _ => ?_
  refine (idle_pushNode2 _ _).moves_bind fun nodes => ?_
  exact (idle_getToken _).moves_bind fun _ => moduleLoop_moves host _ nodes

/-! ## Reachable states -/

/-- The states that steps build from that of `cup_new`. -/
def ScopeReachable (host : Host) (s : CUPState) : Prop :=
  ∃ s₀ s₁ addr, cupNew host addr s₀ = .ok () s₁ ∧ ScopeSteps s₁ s

theorem cupAddSymbol_scopes {s s' : CUPState} {r : Int} {name : Bytes} {val : Nat}
    {type : Option TRef} (hs : cupAddSymbol name val type s = .ok r s') :
    s'.scopes = s.scopes ∧ s'.scope = s.scope := by
  unfold cupAddSymbol at hs
  split at hs
  · cases hs
    exact ⟨rfl, rfl⟩
  · rw [Run.get_bind] at hs
    have htables := (idToken_frame s name).2.2.2.2
    rcases hpair : idToken s name with ⟨s₁, dup⟩
    rw [hpair] at hs htables
    have hscopes : s₁.scopes = s.scopes := congrArg Tables.scopes htables
    have hscope : s₁.scope = s.scope := congrArg Tables.scope htables
    dsimp only at hs
    rw [Run.set_bind] at hs
    cases dup with
    | none =>
      cases hs
      exact ⟨hscopes, hscope⟩
    | some svalue =>
      obtain ⟨found, s₂, hl, hs⟩ := Run.bind_eq_ok.mp hs
      obtain ⟨-, rfl⟩ := Run.lift_eq_ok.mp hl
      cases found with
      | some v =>
        cases hs
        exact ⟨hscopes, hscope⟩
      | none =>
        obtain ⟨u, s₂, hput, hs⟩ := Run.bind_eq_ok.mp hs
        cases hs
        obtain ⟨vars, map, rfl⟩ := putVar_eq_ok hput
        exact ⟨hscopes, hscope⟩

/-- The two scopes of `cup_new`, and the current one. -/
theorem cupNew_scopes {host : Host} {s₀ s : CUPState} {addr : Nat}
    (h : cupNew host addr s₀ = .ok () s) : s.scopes = [sizeMax, 0] ∧ s.scope = 1 := by
  unfold cupNew at h
  rw [Run.set_bind] at h
  obtain ⟨t, s₁, ht, h⟩ := Run.bind_eq_ok.mp h
  obtain ⟨r, s₂, hadd, h⟩ := Run.bind_eq_ok.mp h
  cases h
  cases ht
  exact cupAddSymbol_scopes hadd

theorem cupNew_scopeInv {host : Host} {s₀ s : CUPState} {addr : Nat}
    (h : cupNew host addr s₀ = .ok () s) : ScopeInv s := by
  obtain ⟨hscopes, hscope⟩ := cupNew_scopes h
  have hrooted : Rooted [sizeMax, 0] := by
    intro i p hp
    cases i with
    | zero =>
      cases hp
      exact Nat.le_refl _
    | succ i => cases hp
  exact
    { cupNew_inv h with
      rooted := hscopes ▸ hrooted
      first := by rw [hscopes]; rfl
      current := by rw [hscopes, hscope]; decide }

theorem ScopeReachable.inv {host : Host} {s : CUPState} (h : ScopeReachable host s) :
    ScopeInv s := by
  obtain ⟨s₀, s₁, addr, hnew, hsteps⟩ := h
  exact scopeSteps_inv (cupNew_scopeInv hnew) hsteps

/-- `x` takes steps whether it returns or stops, and comes back to its scope. -/
def StaysInScope {α : Type} (x : Comp α) (s : CUPState) : Prop :=
  ScopeSteps s (x s).state ∧ ∀ a s', x s = .ok a s' → s'.scope = s.scope

theorem Moves.staysInScope {α : Type} {x : Comp α} (h : Moves x) {s : CUPState}
    (hs : ScopeInv s) : StaysInScope x s := by
  have hx := h s hs
  unfold Run.Sat at hx
  unfold StaysInScope
  cases hr : x s with
  | ok a s' =>
    rw [hr] at hx
    refine ⟨hx.1, ?_⟩
    rintro _ _ ⟨⟩
    exact hx.2
  | stop e s' =>
    rw [hr] at hx
    exact ⟨hx, fun _ _ h => by cases h⟩

/-- The parser only enters and leaves scopes, visits scope 0, and inserts names that a scope
    does not have yet, and each of its calls comes back to its scope. Over all such sequences
    from `cup_new`, every scope but 0 lies inside a smaller one, the current scope is in the
    table, no name stands twice in a scope, and a lookup ends with the nearest entry on the way
    to scope 0. -/
theorem scopes_lexical {host : Host} {s : CUPState} (h : ScopeReachable host s) :
    (∀ i p, i ≠ 0 → s.scopes[i]? = some p → p < i) ∧
    s.scope < s.scopes.length ∧
    (s.vars.items.map CVariable.key).Nodup ∧
    (∀ n mpower, StaysInScope (primaryFuel host n mpower) s) ∧
    (∀ mpower, StaysInScope (primary host mpower) s) ∧
    StaysInScope (statement host) s ∧
    (∀ text, StaysInScope (parseNodes host text) s) ∧
    ∀ name t, t < s.scopes.length → ∃ l, Path s.scopes t l ∧
      (∀ l', Path s.scopes t l' → l' = l) ∧
      varLookup s name t = .ok (l.findSome? fun u => oldest s.vars.items name u) := by
  have hs := h.inv
  refine ⟨?_, hs.current, hs.nodup, ?_, ?_, ?_, ?_, ?_⟩
  · intro i p hi hp
    obtain ⟨j, rfl⟩ := Nat.exists_eq_succ_of_ne_zero hi
    exact Nat.lt_succ_of_le (hs.rooted j p hp)
  · exact fun n mpower => (primaryFuel_moves host n mpower).staysInScope hs
  · exact fun mpower => (primary_moves host mpower).staysInScope hs
  · exact (statement_moves host).staysInScope hs
  · exact fun text => (parseNodes_moves host text).staysInScope hs
  · intro name t ht
    obtain ⟨l, hl⟩ := hs.rooted.path ht
    exact ⟨l, hl, fun l' hl' => hl'.unique hl, varLookup_path hs name hl⟩

/-- The lines `{x=1`, `{y=x}}`, `x=y` and `{y=2}`: the scopes 2 and 3 are left when `x` and `y` are met in
    scope 1, and scope 4 is entered last. -/
def shadowText : Bytes :=
  ascii ['\x7b', 'x', '=', '1', '\n', '\x7b', 'y', '=', 'x', '\x7d', '\x7d', '\n', 'x', '=', 'y', '\n',
    '\x7b', 'y', '=', '2', '\x7d']

/-- The state in which the parser leaves it. -/
def shadowState : CUPState := (parseNodes bareHost shadowText newState).state

/-- A name of an inner scope hides that of scope 1. -/
theorem scopes_lexical_shadowState :
    shadowState.scopes = [sizeMax, 0, 1, 2, 1] ∧ shadowState.vars.items.map CVariable.key =
      [(ascii ['$'], 1), (ascii ['x'], 2), (ascii ['y'], 3), (ascii ['x'], 1), (ascii ['y'], 1)] ∧
    (∀ i p, i ≠ 0 → shadowState.scopes[i]? = some p → p < i) ∧
    shadowState.scope < shadowState.scopes.length ∧
    (shadowState.vars.items.map CVariable.key).Nodup ∧
    (∀ n mpower, StaysInScope (primaryFuel bareHost n mpower) shadowState) ∧
    (∀ mpower, StaysInScope (primary bareHost mpower) shadowState) ∧
    StaysInScope (statement bareHost) shadowState ∧
    (∀ text, StaysInScope (parseNodes bareHost text) shadowState) ∧
    ∀ name t, t < shadowState.scopes.length → ∃ l, Path shadowState.scopes t l ∧
      (∀ l', Path shadowState.scopes t l' → l' = l) ∧
      varLookup shadowState name t =
        .ok (l.findSome? fun u => oldest shadowState.vars.items name u) := by
  have hsteps : ScopeSteps newState shadowState :=
    ((parseNodes_moves bareHost shadowText).staysInScope (cupNew_scopeInv cupNew_bareHost)).1
  refine ⟨by decide +kernel, by decide +kernel, ?_⟩
  exact scopes_lexical ⟨{}, newState, 64, cupNew_bareHost, hsteps⟩

end Cup
