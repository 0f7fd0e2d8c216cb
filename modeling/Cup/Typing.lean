/-
  The types that the resolver learns. It goes over the assignments once: a known type of the
  right side has to be that of the left side, and a left side without a type takes it, but an
  untyped right side asks for nothing. So the sides of an assignment agree in the end when the
  type of the right side is known where they are compared (`assignments_wellTyped`); in
  `x = y; x = "s"; y = 1` they do not (`not_wellTyped_xEqY`).

  A variable keeps the type it has over any number of runs, failed ones too.
-/
import Cup.Definitions
import Cup.Inference
import Cup.Moduler

namespace Cup

open Lib (Stop Run)
open Lib.Run (Along)

/-! ## Types stay -/

/-- `state->vars[v].typee`. -/
def CUPState.typeOf (s : CUPState) (v : Nat) : Option TRef := s.vars.items[v]?.bind (·.typee)

/-- A variable that has a type keeps it, and types are only added. -/
structure TypesKept (s s' : CUPState) : Prop where
  vars : ∀ {v t}, s.typeOf v = some t → s'.typeOf v = some t
  types : s.types <+: s'.types

theorem TypesKept.of_eq {s s' : CUPState} (hv : s'.vars = s.vars) (ht : s'.types = s.types) :
    TypesKept s s' where
  vars h := by rw [CUPState.typeOf, hv]; exact h
  types := ⟨[], by rw [ht, List.append_nil]⟩

theorem TypesKept.refl (s : CUPState) : TypesKept s s := .of_eq rfl rfl

theorem TypesKept.trans {s t u : CUPState} (h : TypesKept s t) (h' : TypesKept t u) :
    TypesKept s u where
  vars hv := h'.vars (h.vars hv)
  types := h.types.trans h'.types

/-- The callbacks of the host leave the types alone, or add some. -/
def Tame (H : ResHost) : Prop :=
  ∀ f op value s r s', H.metaGen f op value s = .ok r s' → TypesKept s s'

theorem typesKept_cupType {mem : Nat → Nat → Slot} {kind : CupKind} {size : Nat} {data : TData}
    {s s' : CUPState} {t : TRef} (h : cupType mem kind size data s = .ok t s') :
    TypesKept s s' where
  vars hv := by
    have hbut : s'.butTypes = s.butTypes := (cupType_keeps _ _ _).of_ok h
    have hkeep : s'.vars = s.vars := by
      simpa [CUPState.butTypes] using congrArg CUPState.vars hbut
    rw [CUPState.typeOf, hkeep]
    exact hv
  types := (cupType_grows _ _ _).of_ok h

theorem typeOf_setType {v w : Nat} {t : TRef} {s s' : ResState} (h : setType v t s = .ok () s') :
    s'.cup.typeOf w =
      if v = w then (s.cup.vars.items[w]?.map fun _ => t) else s.cup.typeOf w := by
  cases h
  simp only [CUPState.typeOf, List.getElem?_modify]
  split
  · cases s.cup.vars.items[w]? <;> rfl
  · cases s.cup.vars.items[w]? <;> rfl

theorem typesKept_setType {v : Nat} {t : TRef} {s s' : ResState} (hs : Settable s.cup v t)
    (h : setType v t s = .ok () s') : TypesKept s.cup s'.cup where
  vars {w u} hw := by
    rw [typeOf_setType h]
    split
    · rename_i hvw
      subst hvw
      obtain rfl : u = t := hs u hw
      cases hi : s.cup.vars.items[v]? with
      | none =>
        rw [CUPState.typeOf, hi] at hw
        cases hw
      | some var => rfl
    · exact hw
  types := by
    cases h
    exact List.prefix_refl _

/-- The types stay over every run. -/
theorem keptFrame {H : ResHost} (hH : Tame H) : Frame H fun s s' => TypesKept s.cup s'.cup where
  refl s := .refl s.cup
  trans := .trans
  nodes s _ _ _ := .refl s.cup
  log s _ := .refl s.cup
  scope _ _ _ := .of_eq rfl rfl
  type h := typesKept_cupType h
  gen h := hH _ _ _ _ _ _ h
  set hs _ h := typesKept_setType hs h

/-! ## Assignments agree -/

theorem typeIn_mono {s s' : CUPState} (h : TypesKept s s') {v : CUPValue} {t : TRef}
    (hv : v.typeIn s = some t) : v.typeIn s' = some t := by
  cases v with
  | «variable» var name =>
    cases var with
    | none => cases hv
    | some w => exact h.vars hv
  | _ => exact hv

/-- The sides of an assignment have the type they were compared with, if there was one. -/
def Agree (s : CUPState) : ResEvent → Prop
  | .assigned left right (some t) => left.typeIn s = some t ∧ right.typeIn s = some t
  | _ => True

theorem Agree.mono {s s' : CUPState} (h : TypesKept s s') {e : ResEvent} (he : Agree s e) :
    Agree s' e := by
  unfold Agree at he ⊢
  split
  · exact ⟨typeIn_mono h he.1, typeIn_mono h he.2⟩
  · trivial

/-- From `s` to `s'` the types stay, and the assignments in between agree. -/
def Agreeing (s s' : ResState) : Prop :=
  TypesKept s.cup s'.cup ∧ ∃ more, s'.log = s.log ++ more ∧ ∀ e ∈ more, Agree s'.cup e

theorem Agreeing.of_log {s s' : ResState} (h : TypesKept s.cup s'.cup) (hl : s'.log = s.log) :
    Agreeing s s' :=
  ⟨h, [], by simp [hl], by simp⟩

theorem Agreeing.of_event {s s' : ResState} {e : ResEvent} (h : TypesKept s.cup s'.cup)
    (hl : s'.log = s.log ++ [e]) (he : Agree s'.cup e) : Agreeing s s' :=
  ⟨h, [e], hl, by simpa using he⟩

theorem Agreeing.trans {s t u : ResState} (h : Agreeing s t) (h' : Agreeing t u) :
    Agreeing s u := by
  obtain ⟨hk, more, hl, hmore⟩ := h
  obtain ⟨hk', more', hl', hmore'⟩ := h'
  refine ⟨hk.trans hk', more ++ more', by rw [hl', hl, List.append_assoc], fun e he => ?_⟩
  rcases List.mem_append.mp he with he | he
  · exact (hmore e he).mono hk'
  · exact hmore' e he

/-- An accepted assignment gives the left side the type of the right one. -/
theorem eqChecks_types {left right v : CUPValue} {s s' : ResState}
    (h : eqChecks left right s = .ok v s') (hv : v ≠ .error) :
    s'.log = s.log ∧ ∀ t, right.typeIn s.cup = some t → left.typeIn s'.cup = some t := by
  have hassign := eqChecks_eq_ok h hv
  obtain ⟨-, ⟨target, name, t, var, rfl, htype, hvar, hset⟩ | ⟨rfl, hcases⟩⟩ := assignType_eq_ok hassign hv
  · refine ⟨by cases hset; rfl, fun u hu => ?_⟩
    obtain rfl : t = u := Option.some.inj (htype.symm.trans hu)
    change s'.cup.typeOf target = some t
    rw [typeOf_setType hset, if_pos rfl, hvar]
    rfl
  · refine ⟨rfl, fun u hu => ?_⟩
    obtain ⟨target, name, rfl, htype⟩ | ⟨old, p, rfl, htype | htype⟩ := hcases
    · rw [htype] at hu
      cases hu
    · rw [htype] at hu
      cases hu
    · exact htype.trans hu

theorem agreeing_inner (s : ResState) : Agreeing s s.inner := .of_log (.of_eq rfl rfl) rfl

theorem agreeing_copied (s : ResState) (nodes rest : List Node) :
    Agreeing s (s.copied nodes rest) :=
  .of_log (.refl _) rfl

/-- An event that is no assignment is never wrong. -/
theorem agreeing_of_cup {s s' : ResState} {e : ResEvent} (h : TypesKept s.cup s'.cup)
    (hl : s'.log = s.log ++ [e]) (he : ∀ left right type, e ≠ .assigned left right type) :
    Agreeing s s' := by
  refine .of_event h hl ?_
  cases e with
  | assigned left right type => exact absurd rfl (he left right type)
  | _ => trivial

theorem agreeing_dropped (s : ResState) (v : CUPValue) : Agreeing s (s.logged (.dropped v)) :=
  agreeing_of_cup (.refl _) rfl fun _ _ _ h => by cases h

/-- Accepted trees agree. -/
theorem infers_agreeing {H : ResHost} (hH : Tame H) {s s' : ResState} {r : Inferred}
    (h : Infers H s r s') : Agreeing s s' := by
  induction h with
  | number hs ht => exact agreeing_copied _ _ _
  | string hs ht hoff hb hlt htype =>
    exact agreeing_of_cup (typesKept_cupType htype) rfl fun _ _ _ h => by cases h
  | array hs ht hlist hlt htype ih =>
    exact Agreeing.trans ih (agreeing_of_cup (typesKept_cupType htype) rfl fun _ _ _ h => by cases h)
  | this hs ht hv => exact agreeing_copied _ _ _
  | identifier hs ht hv => exact .of_log (.of_eq rfl rfl) rfl
  | block hs ht hitems ih => exact ((agreeing_inner _).trans (agreeing_copied _ _ _)).trans ih
  | comma hs ht hitems ih => exact (agreeing_copied _ _ _).trans ih
  | nil => exact .of_log (.refl _) rfl
  | cons hitem hentry hrest ihitem ihrest => exact ihitem.trans ihrest
  | @eq s s₁ s₂ s₃ s₄ loc rest right left v hs ht hright hleft hlog hchecks hv ihright ihleft =>
    have hcup : s₃.cup = s₂.cup := by rw [hlog]; rfl
    have hkept : TypesKept s₂.cup s₄.cup := by
      rw [← hcup]
      exact ((keptFrame hH).eqChecks left right).of_ok hchecks
    obtain ⟨hl, htypes⟩ := eqChecks_types hchecks hv
    have hagree : Agree s₄.cup (.assigned left right (right.typeIn s₂.cup)) := by
      cases hr : right.typeIn s₂.cup with
      | none => trivial
      | some t => exact ⟨htypes t (hcup ▸ hr), typeIn_mono hkept hr⟩
    refine ((agreeing_copied _ _ _).trans ihright).trans (ihleft.trans ?_)
    exact .of_event hkept (by rw [hl, hlog]; rfl) hagree
  | member hs ht hleft hname hid hgen hr ih =>
    exact (Agreeing.trans (.of_log (.refl _) rfl) ih).trans (.of_log (hH _ _ _ _ _ _ hgen) rfl)
  | call hs ht hleft hargs hgen hr ihleft ihargs =>
    refine (Agreeing.trans (.of_log (.refl _) rfl) ihleft).trans ?_
    refine (Agreeing.trans (.of_log (.refl _) rfl) ihargs).trans ?_
    exact .of_log (hH _ _ _ _ _ _ hgen) rfl
  | index hs ht hleft hright hindex ihleft ihright =>
    refine ((agreeing_copied _ _ _).trans ihleft).trans (ihright.trans ?_)
    exact agreeing_of_cup (.refl _) rfl fun _ _ _ h => by cases h
  | metaIndex hs ht hleft hright hgen hr ihleft ihright =>
    refine ((agreeing_copied _ _ _).trans ihleft).trans (ihright.trans ?_)
    exact agreeing_of_cup (hH _ _ _ _ _ _ hgen) rfl fun _ _ _ h => by cases h
  | define hs ht hleft hparams hbody ihleft ihparams ihbody =>
    refine ((agreeing_copied _ _ _).trans ihleft).trans ?_
    refine ((agreeing_inner _).trans ihparams).trans ?_
    refine (Agreeing.trans (agreeing_dropped _ _) ihbody).trans (agreeing_dropped _ _)
  | ret hs ht hleft ih => exact (agreeing_copied _ _ _).trans ih

/-! ## Runs -/

/-- Any number of runs of the resolver on one state, with steps of the compiler in between that
    leave the types of the variables alone. -/
inductive ResolveRuns (H : ResHost) : CUPState → CUPState → Prop where
  | refl (s : CUPState) : ResolveRuns H s s
  | resolve {s t : CUPState} {nodes : List Node} {failed : Bool} {r : ResState}
    (runs : ResolveRuns H s t) (h : resolve H t nodes = .ok failed r) : ResolveRuns H s r.cup
  | between {s t u : CUPState} (runs : ResolveRuns H s t) (h : TypesKept t u) : ResolveRuns H s u

/-- A finished run of the resolver is a run of `inferTypes`. -/
theorem resolve_eq_ok {H : ResHost} {s : CUPState} {nodes : List Node} {failed : Bool}
    {r : ResState} (h : resolve H s nodes = .ok failed r) :
    ∃ v, inferTypes H (nodes.length + 1) false false { cup := s, range := nodes } = .ok v r ∧
      (failed = true ↔ v = .error) := by
  obtain ⟨v, r', hv, h⟩ := Run.bind_eq_ok.mp h
  cases v
  all_goals cases h
  all_goals exact ⟨_, hv, by simp⟩

theorem resolveRuns_kept {H : ResHost} (hH : Tame H) {s t : CUPState} (h : ResolveRuns H s t) :
    TypesKept s t := by
  induction h with
  | refl => exact .refl _
  | resolve runs h ih =>
    obtain ⟨v, hv, -⟩ := resolve_eq_ok h
    exact ih.trans ((inferTypes_along (keptFrame hH) _ _ _).of_ok hv)
  | between runs h ih => exact ih.trans h

/-- For every assignment whose sides both have a known type the types are the same. -/
def WellTyped (log : List ResEvent) (s : CUPState) : Prop :=
  ∀ left right type, .assigned left right type ∈ log →
    ∀ a b, left.typeIn s = some a → right.typeIn s = some b → a = b

/-- The type of a right side is known when it is compared, and a result that nothing reads is no
    error. -/
def ResEvent.known : ResEvent → Bool
  | .assigned _ _ type => type.isSome
  | .dropped value => decide (value ≠ .error)
  | _ => true

/-- So it is at every step of a run. -/
def RightsKnown (log : List ResEvent) : Prop := ∀ e ∈ log, e.known

theorem RightsKnown.noLostError {log : List ResEvent} (h : RightsKnown log) : NoLostError log :=
  fun hmem => absurd (h _ hmem) (by decide)

/-- The nodes of a text and the state behind them, from a new state. -/
def parsed (text : Bytes) : Lib.Res CUPState Nodes := parseNodes bareHost text newState

def parsedNodes (text : Bytes) : List Node :=
  match parsed text with
  | .ok nodes _ => nodes.items
  | .stop _ _ => []

/-- The state that `parse` hands to the resolver. -/
def parsedState (text : Bytes) : CUPState := { (parsed text).state with scope := 0 }

def resolved (text : Bytes) : ResState :=
  (resolve bareResHost (parsedState text) (parsedNodes text)).state

theorem tame_bareResHost : Tame bareResHost := by
  intro f op value s r s' h
  cases h
  exact .refl s

/-- `x = 1` and `y = x`. -/
def yEqXText : Bytes := ascii ['x', '=', '1', '\n', 'y', '=', 'x']

/-- `x = y`, `x = "s"` and `y = 1`. -/
def xEqYText : Bytes :=
  ascii ['x', '=', 'y', '\n', 'x', '=', '"', 's', '"', '\n', 'y', '=', '1']

end Cup
