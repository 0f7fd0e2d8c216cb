/-
  The front end ends on every text. `weight` is what is left of the text; a primary that returns
  has taken at least one token, so that the depth and the loop counts of the model are enough
  for the text, and every loop ends.

  `GoesAt s x Q`: from the state `s`, `x` returns to a sound state in `Q`, exits or fails an
  assertion, or makes an unguarded access (`Halts`).
-/
import Cup.Boundary
import Cup.Definitions
import Cup.Moduler
import Cup.VarTable

namespace Cup

open Lib (Stop Run)

/-! ## Node vectors -/

/-- A vector that can be extended: a new one, or a live one. -/
def Fresh (v : Nodes) : Prop := v = {} ∨ v.buf = .live

/-- The nodes start with a token; a list, a block or an array has a number behind it. -/
def Headed (items : List Node) : Prop :=
  ∃ loc rest, items = .tok loc :: rest ∧
    (loc.token = .tComma ∨ loc.token = .nBlock ∨ loc.token = .nArray → ∃ n rest', rest = .value n :: rest')

/-- What a primary returns: no nodes, or nodes that start with a token. -/
def Usable (v : Nodes) : Prop := v = {} ∨ v.buf = .live ∧ Headed v.items

theorem Usable.fresh {v : Nodes} (h : Usable v) : Fresh v := h.imp_right And.left

theorem usable_empty : Usable {} := .inl rfl

theorem Headed.append {items : List Node} (h : Headed items) (more : List Node) :
    Headed (items ++ more) := by
  obtain ⟨loc, rest, rfl, hcount⟩ := h
  refine ⟨loc, rest ++ more, rfl, fun ht => ?_⟩
  obtain ⟨n, rest', rfl⟩ := hcount ht
  exact ⟨n, rest' ++ more, rfl⟩

theorem headed_node2 {n : Node2} (more : List Node)
    (h : n.token = .tComma ∨ n.token = .nBlock ∨ n.token = .nArray → ∃ v, n.payload = .value v) :
    Headed (n.nodes ++ more) := by
  refine ⟨n.loc, n.payload :: more, rfl, fun ht => ?_⟩
  obtain ⟨v, hv⟩ := h ht
  exact ⟨v, more, by rw [hv]⟩

theorem headed_loc {loc : Loc} (more : List Node)
    (h : loc.token ≠ .tComma ∧ loc.token ≠ .nBlock ∧ loc.token ≠ .nArray) :
    Headed (.tok loc :: more) := by
  refine ⟨loc, more, rfl, fun ht => ?_⟩
  rcases ht with ht | ht | ht
  · exact absurd ht h.1
  · exact absurd ht h.2.1
  · exact absurd ht h.2.2

theorem vectorResize_live {v : Nodes} (hv : Fresh v) {n : Nat} (hn : 0 < n) :
    ∃ c, vectorResize v n = .ok ⟨.live, v.items, c⟩ := by
  unfold vectorResize
  rw [if_neg (by omega)]
  rcases hv with rfl | hlive
  · have hcap : ¬ n ≤ ({} : Nodes).capacity := by
      change ¬ n ≤ 0
      omega
    rw [if_neg hcap]
    exact ⟨_, rfl⟩
  · rw [← hlive]
    split
    · exact ⟨v.capacity, rfl⟩
    · rw [if_neg (by simp [hlive])]
      exact ⟨_, by rw [hlive]⟩

theorem vectorPush_live {v : Nodes} (hv : Fresh v) {b : List Node} (hb : b ≠ []) :
    ∃ c, vectorPush 8 v b = .ok ⟨.live, v.items ++ b, c⟩ := by
  have hpos : 0 < b.length := List.length_pos_iff.mpr hb
  obtain ⟨c, hc⟩ := vectorResize_live hv (n := (v.items.length + b.length) * 8) (by omega)
  exact ⟨c, vectorPush_of_resize hb hc rfl⟩

theorem vectorFpush_live {v : Nodes} (hv : Fresh v) {b : List Node} (hb : b ≠ []) :
    ∃ c, vectorFpush 8 v b = .ok ⟨.live, b ++ v.items, c⟩ := by
  obtain ⟨c, hc⟩ := vectorPush_live hv hb
  exact ⟨c, by rw [vectorFpush_eq_map, hc]; rfl⟩

theorem pushLoc_eq {v : Nodes} (hv : Fresh v) (loc : Loc) :
    ∃ c, pushLoc v loc = pure ⟨.live, v.items ++ [.tok loc], c⟩ := by
  obtain ⟨c, hc⟩ := vectorPush_live hv (b := [.tok loc]) (by simp)
  exact ⟨c, by rw [pushLoc, hc]; rfl⟩

theorem pushNode2_eq {v : Nodes} (hv : Fresh v) (n : Node2) :
    ∃ c, pushNode2 v n = pure ⟨.live, v.items ++ n.nodes, c⟩ := by
  obtain ⟨c, hc⟩ := vectorPush_live hv (b := n.nodes) (by simp [Node2.nodes])
  exact ⟨c, by rw [pushNode2, hc]; rfl⟩

theorem fpushNode_eq {v : Nodes} (hv : Fresh v) (n : Node) :
    ∃ c, fpushNode v n = pure ⟨.live, n :: v.items, c⟩ := by
  obtain ⟨c, hc⟩ := vectorFpush_live hv (b := [n]) (by simp)
  exact ⟨c, by rw [fpushNode, hc]; rfl⟩

theorem pushVector_live {dest v : Nodes} (hd : Fresh dest) (hs : v.buf = .live)
    (hne : v.items ≠ []) :
    ∃ c, (Run.lift (pushVector 8 dest v) : Comp Nodes) =
      pure ⟨.live, dest.items ++ v.items, c⟩ := by
  obtain ⟨c, hc⟩ := vectorPush_live hd hne
  refine ⟨c, ?_⟩
  rw [pushVector, hs]
  dsimp only
  rw [hc]
  rfl

theorem pushVector_eq {dest src : Nodes} (hd : Fresh dest) (hs : Usable src) :
    ∃ v, (Run.lift (pushVector 8 dest src) : Comp Nodes) = pure v ∧ Fresh v ∧
      ∃ more, v.items = dest.items ++ more ∧ (dest.buf = .live → v.buf = .live) := by
  rcases hs with rfl | ⟨hlive, loc, rest, hitems, -⟩
  · exact ⟨dest, rfl, hd, [], by simp, id⟩
  · obtain ⟨c, hc⟩ := pushVector_live hd hlive (by simp [hitems])
    exact ⟨_, hc, .inr rfl, src.items, rfl, fun _ => rfl⟩

/-- A list without its header; the vector of an empty list is released. -/
theorem vectorFpop_two {v : Nodes} {a b : Node} {rest : List Node} (hv : v.buf = .live)
    (hi : v.items = a :: b :: rest) :
    vectorFpop v 2 = .ok (if rest = [] then { v with buf := .freed, items := [] }
      else { v with items := rest }) := by
  have hlen : v.items.length = rest.length + 2 := by rw [hi]; rfl
  unfold vectorFpop vectorPop
  rw [if_neg (by decide)]
  by_cases hrest : rest = []
  · rw [if_pos (by rw [hlen, hrest]; decide), if_pos hrest, hv]
    rfl
  · have hpos : 0 < rest.length := List.length_pos_iff.mpr hrest
    have htake : v.items.take (v.items.length - 2) ≠ [] := by
      intro h
      have := congrArg List.length h
      rw [List.length_take, List.length_nil] at this
      omega
    rw [if_neg (by omega), if_neg hrest]
    change (if v.items.take (v.items.length - 2) = [] then _ else _) = _
    rw [if_neg htake, hi]
    rfl

theorem pushFront_eq {dest src v : Nodes} (hs : src.buf = .live)
    (h : vectorFpush 8 dest src.items = .ok v) :
    (Run.lift (fpushVector 8 dest src) : Comp Nodes) = pure v := by
  rw [fpushVector, hs]
  dsimp only
  rw [h]
  rfl

theorem headToken_eq {v : Nodes} {loc : Loc} {rest : List Node} (hv : v.buf = .live)
    (hi : v.items = .tok loc :: rest) : headToken v = pure loc.token := by
  unfold headToken CVec.at
  rw [hv, hi]
  rfl

theorem payloadValue_eq {v : Nodes} {a : Node} {n : Nat} {rest : List Node} (hv : v.buf = .live)
    (hi : v.items = a :: .value n :: rest) : payloadValue v = pure n := by
  unfold payloadValue CVec.at
  rw [hv, hi]
  rfl

/-! ## Requests for types

A definition or a signature asks for a function type whose parameters are unknown or base types,
with the sentinel behind them; a signature asks for pointer types as well. -/

/-- The function entries can be compared. -/
def FuncsOk (types : List CUPType) : Prop := ∀ ptr ∈ types, ptr.cuptype = .typeFunction →
  ∃ ret args, ptr.data = .func ret args ∧ ptr.size ≤ args.length

/-- A parameter that is unknown or has a base type. -/
def SlotBase (slot : Slot) : Prop := slot = .null ∨ ∃ k, slot = .type (.base k) ∧ k.isBase

theorem SlotOk.base {slot : Slot} (h : SlotOk slot) : SlotBase slot :=
  h.imp_right fun h => ⟨.typeVoid, h, rfl⟩

theorem cupTypeGet_base {k : CupKind} (hk : k.isBase) (types : List CUPType) (size : Nat)
    (data : TData) : cupTypeGet types k size data = .ok (some (.base k)) := by
  cases k <;> first | rfl | cases hk

section Requests

variable {mem : Nat → Nat → Slot}

/-- The parameter loop of `newtype` stops at the first sentinel. -/
theorem newtypeArgs_base {n : Nat} {garbage : Nat → Slot} {params : List Slot}
    (hok : ∀ slot ∈ params, SlotBase slot) (hmem : .type (.base .typeVoid) ∈ params) (j : Nat)
    (args : List Slot) (s : CUPState) :
    newtypeArgs (cupTypeFuel mem (n + 1)) garbage params j args s =
      .stop (.assertion "it != &cup_type_void") s := by
  induction params generalizing j args with
  | nil => cases hmem
  | cons slot params ih =>
    have htail : ∀ q ∈ params, SlotBase q := fun q hq => hok q (List.mem_cons_of_mem _ hq)
    rcases hok slot List.mem_cons_self with rfl | ⟨k, rfl, hk⟩
    · rw [newtypeArgs]
      exact ih htail (by simpa using hmem) _ _
    · rw [newtypeArgs]
      by_cases hvoid : k = .typeVoid
      · rw [hvoid, if_pos rfl]
        rfl
      · have hmem' : .type (.base .typeVoid) ∈ params := by
          rcases List.mem_cons.mp hmem with h | h
          · cases h
            exact absurd rfl hvoid
          · exact h
        have hfound : cupTypeFuel mem (n + 1) (baseType k).cuptype (baseType k).size
            (.payload (.base k)) s = .ok (.base k) s :=
          cupTypeFuel_found (cupTypeGet_base hk _ _ _)
        rw [if_neg (by simpa using hvoid), Run.get_bind]
        dsimp only [typeAt]
        rw [Run.bind_of_ok hfound]
        exact ih htail hmem' _ _

/-- A request for a function type is answered from the table or fails the assertion. -/
theorem cupType_function (mem : Nat → Nat → Slot) {size : Nat} {slots : List Slot} {ret : Slot}
    {params : List Slot} {s : CUPState} (hf : FuncsOk s.types) (hsize : size < 2 ^ 16) (hlen : size + 1 ≤ slots.length)
    (hwords : slots.take (size + 1) = ret :: params) (hok : ∀ slot ∈ params, SlotBase slot)
    (hmem : .type (.base .typeVoid) ∈ params) :
    (∃ t, cupType mem .typeFunction size (.slots slots) s = .ok t s) ∨
      cupType mem .typeFunction size (.slots slots) s =
        .stop (.assertion "it != &cup_type_void") s := by
  have hdata : dataSlots s.types (.slots slots) (size + 1) = .ok (ret :: params) := by
    rw [← hwords]
    exact if_pos hlen
  have hcompare : ∀ i ptr, s.types[i]? = some ptr → ∃ b,
      entryMatches s.types .typeFunction size (.slots slots) (0 + i) ptr = .ok b := by
    intro i ptr hp
    rw [Nat.zero_add]
    by_cases hk : ptr.cuptype = .typeFunction
    · by_cases hs : ptr.size = size
      · obtain ⟨r, args, hd, hle⟩ := hf ptr (List.mem_of_getElem? hp) hk
        have hown := dataSlots_entry hp hs hd (by omega)
        exact ⟨_, by rw [entryMatches_func hk hs rfl hown hdata]⟩
      · exact ⟨false, entryMatches_of_size hs⟩
    · exact ⟨false, entryMatches_of_kind hk⟩
  rw [cupType_apply, Nat.mod_eq_of_lt hsize]
  rcases cupTypeGetEx_first hcompare with ⟨j, q, -, -, -, hfound⟩ | ⟨-, hnone⟩
  · exact .inl ⟨_, cupTypeFuel_found hfound⟩
  · have hnewt : newtype mem (cupTypeFuel mem (s.types.length + 1)) .typeFunction size
        (.slots slots) s = .stop (.assertion "it != &cup_type_void") s := by
      unfold newtype
      rw [Run.get_bind]
      dsimp only
      rw [hdata, Run.lift_ok_bind]
      dsimp only
      rw [Run.bind_of_stop (newtypeArgs_base hok hmem _ _ _)]
    refine .inr ?_
    have hget : cupTypeGet s.types .typeFunction size (.slots slots) = .ok none := hnone
    rw [cupTypeFuel, Run.get_bind, hget, Run.lift_ok_bind]
    dsimp only
    rw [if_neg (by simp), Run.bind_of_stop hnewt]

theorem cupTypeGetEx_pointer {types : List CUPType} (slots : List Slot) (l : List CUPType) (i : Nat) :
    cupTypeGetEx types .typePointer 8 (.slots slots) l i = .error (.exit 1) ∨
      cupTypeGetEx types .typePointer 8 (.slots slots) l i = .ok none := by
  induction l generalizing i with
  | nil => exact .inr rfl
  | cons ptr l ih =>
    unfold cupTypeGetEx entryMatches
    split
    · exact ih _
    · split
      · exact ih _
      · exact .inl rfl

/-- A request of a signature for a pointer type ends the process, or reads the array as a type. -/
theorem cupType_header (mem : Nat → Nat → Slot) (slots : List Slot) (s : CUPState) :
    cupType mem .typePointer 8 (.slots slots) s = .stop (.exit 1) s ∨
      cupType mem .typePointer 8 (.slots slots) s =
        .stop (.fault "data is no type") { s with gaps := s.gaps ++ [.header] } := by
  rw [cupType_apply, cupTypeFuel, Run.get_bind]
  rcases cupTypeGetEx_pointer slots s.types 0 with h | h
  · have hget : cupTypeGet s.types .typePointer (8 % 2 ^ 16) (.slots slots) = .error (.exit 1) := h
    rw [hget]
    exact .inl rfl
  · have hget : cupTypeGet s.types .typePointer (8 % 2 ^ 16) (.slots slots) = .ok none := h
    rw [hget]
    exact .inr rfl

end Requests

/-! ## Sound states -/

/-- The tables can be searched, every scope is inside an older one, and nothing was read
    unguarded. -/
structure TablesOk (s : CUPState) : Prop where
  vars : VarsOk s
  parents : ∀ i p, s.scopes[i + 1]? = some p → p ≤ i
  root : s.scopes[0]? = some sizeMax
  outer : 1 < s.scopes.length
  scope : s.scope < s.scopes.length
  types : FuncsOk s.types
  tempmem : ∀ slot ∈ s.tempmem, SlotOk slot
  gaps : s.gaps = []

/-- What the front end keeps: the walk of the lexer arrives, and a name has its string. -/
structure Sound (s : CUPState) : Prop extends TablesOk s where
  walk : s.InWalk
  name : s.token = .tIdentifier → ∃ str, s.nodes.payload = .svalue str
  read : s.nodes.Read

/-- The text and the current token. -/
def CUPState.text (s : CUPState) : Bytes × Option Bytes × Node2 := (s.input, s.priv, s.nodes)

theorem input_of_text {s s' : CUPState} (h : s'.text = s.text) : s'.input = s.input :=
  congrArg Prod.fst h

theorem priv_of_text {s s' : CUPState} (h : s'.text = s.text) : s'.priv = s.priv :=
  congrArg (fun t => t.2.1) h

theorem nodes_of_text {s s' : CUPState} (h : s'.text = s.text) : s'.nodes = s.nodes :=
  congrArg (fun t => t.2.2) h

theorem weight_of_text {s s' : CUPState} (h : s'.text = s.text) : s'.weight = s.weight := by
  unfold CUPState.weight CUPState.token
  rw [input_of_text h, nodes_of_text h]

theorem TablesOk.congr {s s' : CUPState} (h : TablesOk s) (htab : s'.tables = s.tables) :
    TablesOk s' := by
  have hscopes : s'.scopes = s.scopes := congrArg Tables.scopes htab
  have hscope : s'.scope = s.scope := congrArg Tables.scope htab
  have hvars : s'.vars = s.vars := congrArg Tables.vars htab
  have hmap : s'.varsMap = s.varsMap := congrArg Tables.varsMap htab
  have htypes : s'.types = s.types := congrArg Tables.types htab
  have htemp : s'.tempmem = s.tempmem := congrArg Tables.tempmem htab
  have hgaps : s'.gaps = s.gaps := congrArg Tables.gaps htab
  refine ⟨?_, ?_, ?_, ?_, ?_, ?_, ?_, ?_⟩
  · exact h.vars.of_keys (by rw [hvars]) (by rw [hvars]) (by rw [hvars]) hmap
  · rw [hscopes]
    exact h.parents
  · rw [hscopes]
    exact h.root
  · rw [hscopes]
    exact h.outer
  · rw [hscope, hscopes]
    exact h.scope
  · rw [htypes]
    exact h.types
  · rw [htemp]
    exact h.tempmem
  · rw [hgaps]
    exact h.gaps

theorem Sound.congr {s s' : CUPState} (h : Sound s) (ht : s'.text = s.text)
    (htab : s'.tables = s.tables) : Sound s' := by
  refine ⟨h.toTablesOk.congr htab, ?_, ?_, ?_⟩
  · unfold CUPState.InWalk
    rw [input_of_text ht, priv_of_text ht]
    exact h.walk
  · unfold CUPState.token
    rw [nodes_of_text ht]
    exact h.name
  · rw [nodes_of_text ht]
    exact h.read

/-! ## Runs -/

/-- A run stops by an exit or an assertion, and then it accessed nothing unguarded, or in an
    unguarded access. -/
def Halts (e : Stop) (s : CUPState) : Prop :=
  match e with
  | .exit _ => s.gaps = []
  | .assertion _ => s.gaps = []
  | .fault _ => s.gaps ≠ []
  | .fuel => False

section GoesAt

variable {α β : Type}

/-- From `s`, `x` returns to a sound state in `Q`, or halts. No scope is removed. -/
def GoesAt (s : CUPState) (x : Comp α) (Q : α → CUPState → Prop) : Prop :=
  x.Sat s (fun a s' => Sound s' ∧ s.scopes.length ≤ s'.scopes.length ∧ Q a s') Halts

/-- `x` leaves the text alone. -/
abbrev Stays (x : Comp α) (Q : α → Prop) : Prop :=
  ∀ s, Sound s → GoesAt s x fun a s' => s'.text = s.text ∧ Q a

variable {s : CUPState} {x : Comp α} {f : α → Comp β} {Q Q' : α → CUPState → Prop}
  {R : β → CUPState → Prop}

theorem goesAt_pure {a : α} (hs : Sound s) (h : Q a s) : GoesAt s (pure a) Q :=
  ⟨hs, Nat.le_refl _, h⟩

theorem goesAt_exit {n : Nat} (hs : Sound s) : GoesAt s (exit n) Q := hs.gaps

theorem goesAt_mono (h : GoesAt s x Q)
    (hq : ∀ a s', Sound s' → s.scopes.length ≤ s'.scopes.length → Q a s' → Q' a s') :
    GoesAt s x Q' :=
  Run.sat_mono h (fun a s' h => ⟨h.1, h.2.1, hq a s' h.1 h.2.1 h.2.2⟩) fun _ _ h => h

theorem goesAt_bind (hx : GoesAt s x Q)
    (hf : ∀ a s', Sound s' → s.scopes.length ≤ s'.scopes.length → Q a s' → GoesAt s' (f a) R) :
    GoesAt s (x >>= f) R := by
  unfold GoesAt
  rw [Run.sat_bind]
  refine Run.sat_mono hx (fun a s' h => ?_) fun _ _ h => h
  obtain ⟨hs', hle, hq⟩ := h
  exact Run.sat_mono (hf a s' hs' hle hq)
    (fun b s'' h => ⟨h.1, Nat.le_trans hle h.2.1, h.2.2⟩) fun _ _ h => h

theorem goesAt_get {f : CUPState → Comp β} (h : GoesAt s (f s) R) : GoesAt s (Run.get >>= f) R := h

/-- An unguarded access. -/
theorem goesAt_gap {g : Gap} {text : String} :
    GoesAt s (do noteGap g; Run.stop (.fault text) : Comp α) Q := by
  change s.gaps ++ [g] ≠ []
  simp

/-- A change of the state that keeps the scopes. -/
theorem goesAt_modify {g : CUPState → CUPState} {f : Unit → Comp β} (hg : (g s).scopes = s.scopes)
    (h : GoesAt (g s) (f ()) R) : GoesAt s (Run.modify g >>= f) R := by
  unfold GoesAt at h
  rw [hg] at h
  exact h

theorem goesAt_note {e : Event} {f : Unit → Comp β}
    (h : GoesAt { s with trace := s.trace ++ [e] } (f ()) R) : GoesAt s (note e >>= f) R := h

/-- `getToken` takes the current token, and what is left fits the characters. -/
theorem goesAt_getToken (space : Bool) (hs : Sound s) :
    GoesAt s (getToken space) fun _ s' => s'.weight ≤ s.input.length := by
  obtain ⟨s', hget, hf⟩ := getToken_ok space hs.walk
  have hread := (Run.sat_of_ok hget).mp (getToken_read space s)
  have htab := hf.tables
  have hscopes : s'.scopes = s.scopes := congrArg Tables.scopes htab
  have hsound : Sound { s with input := s'.input, priv := s'.priv, nodes := s'.nodes } :=
    { walk := hf.walk
      name := hf.name
      read := hread.1
      vars := hs.vars
      parents := hs.parents
      root := hs.root
      outer := hs.outer
      scope := hs.scope
      types := hs.types
      tempmem := hs.tempmem
      gaps := hs.gaps }
  rw [GoesAt, Run.sat_of_ok hget]
  exact ⟨hsound.congr rfl htab, by rw [hscopes], hf.weight⟩

end GoesAt

/-! ## Tables -/

section TableSteps

variable {s : CUPState}

/-- A lookup finds an entry of the table, or nothing. -/
theorem varLookupLoop_ok (hs : Sound s) (name : Bytes) {n scope : Nat} (hn : scope < n)
    (hscope : scope < s.scopes.length) :
    ∃ r, varLookupLoop s name n scope = .ok r ∧ ∀ v, r = some v → ∃ var, s.vars.at v = .ok var := by
  induction n generalizing scope with
  | zero => omega
  | succ n ih =>
    unfold varLookupLoop
    rw [varFind_oldest hs.vars]
    cases ho : oldest s.vars.items name scope with
    | some v =>
      refine ⟨some v, rfl, fun v' hv' => ?_⟩
      obtain rfl := Option.some.inj hv'
      obtain ⟨hlt, -, -⟩ := List.findIdx?_eq_some_iff_getElem.mp ho
      rcases hs.vars with hempty | hinv
      · rw [hempty] at hlt
        cases hlt
      · exact ⟨s.vars.items[v], by rw [CVec.at, hinv.live, List.getElem?_eq_getElem hlt]⟩
    | none =>
      cases scope with
      | zero =>
        refine ⟨none, rfl, fun v hv => ?_⟩
        cases hv
      | succ i =>
        have hp : s.scopes[i + 1]? = some s.scopes[i + 1] := List.getElem?_eq_getElem hscope
        have hle := hs.parents i _ hp
        obtain ⟨r, hr, hat⟩ := @ih s.scopes[i + 1] (by omega) (by omega)
        refine ⟨r, ?_, hat⟩
        simp only [bind, Except.bind, Nat.succ_ne_zero, if_false, hp]
        exact hr

theorem varLookup_ok (hs : Sound s) (name : Bytes) {scope : Nat} (h : scope < s.scopes.length) :
    ∃ r, varLookup s name scope = .ok r ∧ ∀ v, r = some v → ∃ var, s.vars.at v = .ok var :=
  varLookupLoop_ok hs name (Nat.lt_succ_self scope) h

theorem Sound.setVars {vars : CVec CVariable} {map : List Nat} (hs : Sound s)
    (h : VarsOk { s with vars := vars, varsMap := map }) :
    Sound { s with vars := vars, varsMap := map } where
  walk := hs.walk
  name := hs.name
  read := hs.read
  vars := h
  parents := hs.parents
  root := hs.root
  outer := hs.outer
  scope := hs.scope
  types := hs.types
  tempmem := hs.tempmem
  gaps := hs.gaps

theorem putVar_stays (name : CStr) (type : Option TRef) (value scope : Nat) :
    Stays (putVar name type value scope) fun _ => True := by
  intro s hs
  obtain ⟨vars', map', hput, -, hinv⟩ := putVar_spec hs.vars name type value scope
  rw [GoesAt, Run.sat_of_ok hput]
  exact ⟨hs.setVars (.inr hinv), Nat.le_refl _, rfl, trivial⟩

theorem declare_stays (name : CStr) : Stays (declare name) fun _ => True := by
  intro s hs
  obtain ⟨r, hr, -⟩ := varLookup_ok hs name.bytes hs.scope
  unfold declare
  refine goesAt_get ?_
  rw [hr]
  cases r with
  | some v => exact ⟨hs.congr rfl rfl, Nat.le_refl _, rfl, trivial⟩
  | none =>
    change GoesAt s (putVar _ _ _ _ >>= _) _
    refine goesAt_bind (putVar_stays _ _ _ _ s hs) fun _ s' hs' _ h => ?_
    exact ⟨hs'.congr rfl rfl, Nat.le_refl _, h⟩

theorem setVarType_stays (name : CStr) (type : TRef) :
    Stays (setVarType name type) fun _ => True := by
  intro s hs
  obtain ⟨r, hr, hat⟩ := varLookup_ok hs name.bytes hs.scope
  unfold setVarType
  refine goesAt_get ?_
  rw [hr]
  cases r with
  | none => exact hs.gaps
  | some v =>
    obtain ⟨var, hvar⟩ := hat v rfl
    change GoesAt s (Run.lift (s.vars.at v) >>= _) _
    rw [hvar]
    refine ⟨hs.setVars (hs.vars.of_keys rfl rfl ?_ rfl), Nat.le_refl _, rfl, trivial⟩
    have hv : s.vars.items[v]? = some var := by
      unfold CVec.at at hvar
      split at hvar
      · rename_i h
        cases hvar
        exact h
      · cases hvar
      · cases hvar
    obtain ⟨hlt, rfl⟩ := List.getElem?_eq_some_iff.mp hv
    have hlt' : v < (s.vars.items.map CVariable.key).length := by
      rw [List.length_map]
      exact hlt
    have hkey : CVariable.key { s.vars.items[v] with typee := some type } =
        (s.vars.items.map CVariable.key)[v] := by
      rw [List.getElem_map]
      rfl
    rw [List.map_set, hkey, List.set_getElem_self]

/-- A new scope is inside the current one. -/
theorem scopeEnter_stays : Stays scopeEnter fun _ => True := by
  intro s hs
  have hne : s.scopes ≠ [] := by
    intro h
    have := hs.outer
    rw [h] at this
    cases this
  unfold scopeEnter
  rw [GoesAt, Run.sat_bind, Run.sat_modify, if_neg hne]
  have hlen : (s.scopes ++ [s.scope]).length = s.scopes.length + 1 := by simp
  refine ⟨?_, ?_, rfl, trivial⟩
  · exact
      { walk := hs.walk
        name := hs.name
        read := hs.read
        vars := hs.vars
        parents := by
          intro i p hp
          have houter := hs.outer
          have hscope := hs.scope
          change (s.scopes ++ [s.scope])[i + 1]? = some p at hp
          rcases Nat.lt_trichotomy (i + 1) s.scopes.length with hlt | heq | hgt
          · rw [List.getElem?_append_left hlt] at hp
            exact hs.parents i p hp
          · rw [List.getElem?_append_right (by omega), heq, Nat.sub_self] at hp
            cases hp
            omega
          · rw [List.getElem?_eq_none (by omega)] at hp
            cases hp
        root := by
          rw [List.getElem?_append_left (by have := hs.outer; omega)]
          exact hs.root
        outer := by
          have := hs.outer
          change 1 < (s.scopes ++ [s.scope]).length
          omega
        scope := by
          change s.scopes.length < (s.scopes ++ [s.scope]).length
          omega
        types := hs.types
        tempmem := hs.tempmem
        gaps := hs.gaps }
  · change s.scopes.length ≤ (s.scopes ++ [s.scope]).length
    omega

theorem Sound.setScope {scope : Nat} (hs : Sound s) (h : scope < s.scopes.length) :
    Sound { s with scope := scope } where
  walk := hs.walk
  name := hs.name
  read := hs.read
  vars := hs.vars
  parents := hs.parents
  root := hs.root
  outer := hs.outer
  scope := h
  types := hs.types
  tempmem := hs.tempmem
  gaps := hs.gaps

theorem scopeLeave_stays : Stays scopeLeave fun _ => True := by
  intro s hs
  unfold scopeLeave
  refine goesAt_get ?_
  split
  · exact hs.gaps
  · rename_i parent hp
    split
    · exact hs.gaps
    · rename_i hmax
      refine ⟨hs.setScope ?_, Nat.le_refl _, rfl, trivial⟩
      have hscope := hs.scope
      cases hi : s.scope with
      | zero =>
        rw [hi, hs.root] at hp
        exact absurd (Option.some.inj hp).symm hmax
      | succ i =>
        rw [hi] at hp
        have := hs.parents i parent hp
        omega

theorem Sound.setTempmem {slots : List Slot} (hs : Sound s) (h : ∀ slot ∈ slots, SlotOk slot) :
    Sound { s with tempmem := slots } where
  walk := hs.walk
  name := hs.name
  read := hs.read
  vars := hs.vars
  parents := hs.parents
  root := hs.root
  outer := hs.outer
  scope := hs.scope
  types := hs.types
  tempmem := h
  gaps := hs.gaps

theorem functionType_stays (host : Host) (argc : Nat) :
    Stays (functionType host argc) fun _ => True := by
  intro s hs
  by_cases hargc : 2048 ≤ 8 * (argc + 2)
  · rw [functionType, functionSlots, if_pos hargc]
    exact hs.gaps
  · have hsound : Sound { s with tempmem := requestSlots argc s.tempmem } :=
      hs.setTempmem (requestSlots_ok hs.tempmem)
    obtain ⟨ret, params, hwords, hok, hmem⟩ :=
      requestSlots_words (by omega : argc + 2 < 256) hs.tempmem
    have hlen := requestSlots_length argc s.tempmem
    rw [functionType, GoesAt, Run.sat_bind, Run.sat_of_ok (functionSlots_ok hargc s)]
    rcases cupType_function host.mem
        (s := { s with tempmem := requestSlots argc s.tempmem }) hs.types (by omega : argc + 1 < _)
        (by omega) hwords (fun slot h => (hok slot h).base) hmem with ⟨t, ht⟩ | hstop
    · rw [Run.sat_of_ok ht]
      exact ⟨hsound, Nat.le_refl _, rfl, trivial⟩
    · rw [Run.sat_of_stop hstop]
      exact hs.gaps

/-- A request for a pointer type does not return. -/
theorem header_stays {mem : Nat → Nat → Slot} (slots : List Slot) {Q : TRef → Prop} :
    Stays (cupType mem .typePointer 8 (.slots slots)) Q := by
  intro s hs
  rw [GoesAt]
  rcases cupType_header mem slots s with h | h
  · rw [Run.sat_of_stop h]
    exact hs.gaps
  · rw [Run.sat_of_stop h]
    change s.gaps ++ [.header] ≠ []
    simp

/-- What a signature reads as one type is a base type, or no type. -/
def BaseType (r : Option TRef × Bytes) : Prop := ∀ t, r.1 = some t → ∃ k, t = .base k ∧ k.isBase

theorem base_of_ite {c : Prop} [Decidable c] {k : CupKind} {rest : Option CupKind}
    (hk : k.isBase) (hrest : ∀ j, rest = some j → j.isBase) :
    ∀ j, (if c then some k else rest) = some j → j.isBase := by
  intro j hj
  by_cases h : c
  · rw [if_pos h] at hj
    rw [← Option.some.inj hj]
    exact hk
  · rw [if_neg h] at hj
    exact hrest j hj

theorem typeCode_base (code : Bytes) : ∀ k, typeCode code = some k → k.isBase := by
  unfold typeCode
  repeat' refine base_of_ite rfl ?_
  intro k hk
  cases hk

theorem pointerStars_stays {mem : Nat → Nat → Slot} (p : Bytes) {k : CupKind} (hk : k.isBase) :
    Stays (pointerStars mem p (.base k)) fun r => ∃ k, r.1 = .base k ∧ k.isBase := by
  intro s hs
  cases p with
  | nil => exact goesAt_pure hs ⟨rfl, k, rfl, hk⟩
  | cons c p =>
    unfold pointerStars
    split
    · refine goesAt_bind (header_stays (Q := fun _ => False) _ s hs) fun t s' _ _ h => ?_
      exact h.2.elim
    · exact goesAt_pure hs ⟨rfl, k, rfl, hk⟩

theorem parseOneType_stays {mem : Nat → Nat → Slot} (p : Bytes) :
    Stays (parseOneType mem p) BaseType := by
  intro s hs
  unfold parseOneType
  dsimp only
  split
  · refine goesAt_bind (header_stays (Q := fun _ => False) _ s hs) fun t s' _ _ h => ?_
    exact h.2.elim
  · split
    · refine goesAt_pure hs ⟨rfl, fun t ht => ?_⟩
      cases ht
    · rename_i k hcode
      refine goesAt_bind (pointerStars_stays _ (typeCode_base _ _ hcode) s hs) fun r s' hs' _ h => ?_
      obtain ⟨htext, k', hk', hbase⟩ := h
      refine goesAt_pure hs' ⟨htext, fun t ht => ⟨k', ?_, hbase⟩⟩
      rw [← hk']
      exact (Option.some.inj ht).symm

theorem parseArgs_stays {mem : Nat → Nat → Slot} (n : Nat) (p : Bytes) {args : List Slot}
    (hargs : ∀ slot ∈ args, SlotBase slot) :
    Stays (parseArgs mem n p args) fun args' =>
      (∀ slot ∈ args', SlotBase slot) ∧ args'.length ≤ args.length + n := by
  induction n generalizing p args with
  | zero => exact fun s hs => goesAt_exit hs
  | succ n ih =>
    intro s hs
    unfold parseArgs
    refine goesAt_bind (parseOneType_stays p s hs) fun r s' hs' _ h => ?_
    obtain ⟨htext, hbase⟩ := h
    rcases r with ⟨r, p'⟩
    cases r with
    | none => exact goesAt_exit hs'
    | some t =>
      obtain ⟨k, rfl, hk⟩ := hbase t rfl
      have hargs' : ∀ slot ∈ args ++ [.type (.base k)], SlotBase slot := by
        intro slot hslot
        rcases List.mem_append.mp hslot with h | h
        · exact hargs slot h
        · exact .inr ⟨k, List.mem_singleton.mp h, hk⟩
      have hlen : (args ++ [Slot.type (.base k)]).length = args.length + 1 := by simp
      have hloop : ∀ p, GoesAt s' (parseArgs mem n p (args ++ [.type (.base k)])) fun args' s'' =>
          s''.text = s.text ∧ (∀ slot ∈ args', SlotBase slot) ∧
            args'.length ≤ args.length + (n + 1) := by
        intro p
        refine goesAt_mono (ih p hargs' s' hs') fun args' s'' _ _ h => ?_
        obtain ⟨htext', hall, hle⟩ := h
        exact ⟨htext'.trans htext, hall, by omega⟩
      dsimp only
      split
      · exact hloop _
      · split
        · exact goesAt_pure hs' ⟨htext, hargs', by omega⟩
        · exact hloop _

/-- The request of a signature with the return type `slot` and the parameters `args`. -/
theorem signature_stays {mem : Nat → Nat → Slot} (slot : Slot) {args : List Slot}
    (hargs : ∀ slot ∈ args, SlotBase slot) (hlen : args.length ≤ 254) :
    Stays (cupType mem .typeFunction (args.length + 1)
      (.slots (slot :: args ++ [.type (.base .typeVoid)] ++ List.replicate
        (255 - (slot :: args ++ [Slot.type (.base .typeVoid)]).length) Slot.null))) fun _ => True := by
  intro s hs
  have hwords : (slot :: args ++ [Slot.type (.base .typeVoid)] ++ List.replicate
      (255 - (slot :: args ++ [Slot.type (.base .typeVoid)]).length) Slot.null).take
      (args.length + 1 + 1) = slot :: (args ++ [.type (.base .typeVoid)]) := by
    rw [List.take_append_of_le_length (by simp)]
    exact List.take_of_length_le (by simp)
  have hbase : ∀ q ∈ args ++ [Slot.type (.base .typeVoid)], SlotBase q := by
    intro q hq
    rcases List.mem_append.mp hq with h | h
    · exact hargs q h
    · exact .inr ⟨.typeVoid, List.mem_singleton.mp h, rfl⟩
  rw [GoesAt]
  rcases cupType_function mem hs.types (by omega) (by simp) hwords hbase
      (List.mem_append_right _ List.mem_cons_self) with ⟨t, ht⟩ | hstop
  · rw [Run.sat_of_ok ht]
    exact ⟨hs, Nat.le_refl _, rfl, trivial⟩
  · rw [Run.sat_of_stop hstop]
    exact hs.gaps

theorem cupTypeParse_stays {mem : Nat → Nat → Slot} (sig : Bytes) :
    Stays (cupTypeParse mem sig) fun _ => True := by
  intro s hs
  unfold cupTypeParse
  refine goesAt_bind (parseOneType_stays sig s hs) fun r s' hs' _ h => ?_
  obtain ⟨htext, -⟩ := h
  rcases r with ⟨ret, p⟩
  dsimp only
  split
  · have hparams : Stays (parseParams mem (p.drop 1)) fun args =>
        (∀ slot ∈ args, SlotBase slot) ∧ args.length ≤ 254 := by
      intro s hs
      have hnone : ∀ slot ∈ ([] : List Slot), SlotBase slot := fun slot h => by cases h
      unfold parseParams
      split
      · refine goesAt_mono (parseArgs_stays 254 _ hnone s hs)
          fun args s' _ _ h => ?_
        exact ⟨h.1, h.2.1, by simpa using h.2.2⟩
      · exact goesAt_pure hs ⟨rfl, hnone, Nat.zero_le _⟩
    refine goesAt_bind (hparams s' hs') fun args s'' hs'' _ h => ?_
    obtain ⟨htext', hargs, hlen⟩ := h
    split
    · exact goesAt_gap
    · refine goesAt_bind (signature_stays _ hargs hlen s'' hs'') fun t s₃ hs₃ _ h => ?_
      exact goesAt_pure hs₃ ⟨(h.1.trans htext').trans htext, trivial⟩
  · split
    · exact goesAt_pure hs' ⟨htext, trivial⟩
    · exact goesAt_exit hs'

theorem importModule_stays (host : Host) : Stays (importModule host) fun _ => True := by
  intro s hs
  unfold importModule
  refine goesAt_get ?_
  dsimp only
  split
  · exact goesAt_exit hs
  · exact goesAt_pure hs ⟨rfl, trivial⟩

theorem externalModule_stays (host : Host) : Stays (externalModule host) fun _ => True := by
  intro s hs
  unfold externalModule
  refine goesAt_get ?_
  split
  · exact goesAt_gap
  · dsimp only
    split
    · exact goesAt_gap
    · split
      · exact goesAt_exit hs
      · exact ⟨hs.congr rfl rfl, Nat.le_refl _, rfl, trivial⟩

theorem externalSymbol_stays (host : Host) (name : CStr) (sig : Nat) :
    Stays (externalSymbol host name sig) fun _ => True := by
  intro s hs
  unfold externalSymbol
  refine goesAt_get ?_
  split
  · exact goesAt_exit hs
  · split
    · exact goesAt_gap
    · refine goesAt_bind (cupTypeParse_stays _ s hs) fun type s' hs' _ h => ?_
      refine goesAt_get ?_
      obtain ⟨r, hr, -⟩ := varLookup_ok hs' name.bytes hs'.outer
      rw [hr]
      cases r with
      | some v => exact goesAt_exit hs'
      | none =>
        change GoesAt s' (putVar _ _ _ _) _
        refine goesAt_mono (putVar_stays _ _ _ _ s' hs') fun _ s'' _ _ h' => ?_
        exact ⟨h'.1.trans h.1, trivial⟩

end TableSteps

/-! ## Operands -/

/-- `rec` returns with less left than it started with, for texts of a weight below `n`. -/
def Consumes (n : Nat) (rec : Nat → Comp Nodes) : Prop :=
  ∀ s, Sound s → s.weight < n → ∀ m, 2 ≤ m →
    GoesAt s (rec m) fun v s' => s'.weight < s.weight ∧ Usable v

/-- Something is taken from the text, and a usable vector is returned. -/
abbrev Taken (s : CUPState) (v : Nodes) (s' : CUPState) : Prop := s'.weight < s.weight ∧ Usable v

section Operands

variable {host : Host} {n : Nat} {rec : Nat → Comp Nodes} {s : CUPState}

theorem weight_of_ne (h : s.token ≠ .tEof) : s.weight = s.input.length + 1 := by
  rw [CUPState.weight, if_neg h]

theorem length_le_weight (s : CUPState) : s.input.length ≤ s.weight := Nat.le_add_right _ _

/-- Behind a token that is not the end, less is left. -/
theorem goesAt_next {β : Type} {f : Unit → Comp β} {R : β → CUPState → Prop} {space : Bool}
    (hs : Sound s) (ht : s.token ≠ .tEof)
    (hf : ∀ s', Sound s' → s.scopes.length ≤ s'.scopes.length → s'.weight < s.weight →
      GoesAt s' (f ()) R) : GoesAt s (getToken space >>= f) R := by
  refine goesAt_bind (goesAt_getToken space hs) fun _ s' hs' hle hw => ?_
  rw [weight_of_ne ht] at hf
  exact hf s' hs' hle (by omega)

/-- At any token, not more is left. -/
theorem goesAt_skip {β : Type} {f : Unit → Comp β} {R : β → CUPState → Prop} {space : Bool}
    (hs : Sound s)
    (hf : ∀ s', Sound s' → s.scopes.length ≤ s'.scopes.length → s'.weight ≤ s.weight →
      GoesAt s' (f ()) R) : GoesAt s (getToken space >>= f) R := by
  refine goesAt_bind (goesAt_getToken space hs) fun _ s' hs' hle hw => ?_
  have := length_le_weight s
  exact hf s' hs' hle (by omega)

/-- A step on the tables. -/
theorem goesAt_stays {α β : Type} {x : Comp α} {f : α → Comp β} {Q : α → Prop}
    {R : β → CUPState → Prop} (hx : Stays x Q) (hs : Sound s)
    (hf : ∀ a s', Sound s' → s.scopes.length ≤ s'.scopes.length → s'.text = s.text → Q a →
      GoesAt s' (f a) R) : GoesAt s (x >>= f) R :=
  goesAt_bind (hx s hs) fun a s' hs' hle h => hf a s' hs' hle h.1 h.2

theorem goesAt_noteMissing {β : Type} {v : Nodes} {f : Unit → Comp β} {R : β → CUPState → Prop}
    (hs : Sound s)
    (hf : ∀ s', Sound s' → s'.scopes = s.scopes → s'.text = s.text → GoesAt s' (f ()) R) :
    GoesAt s (noteMissing v >>= f) R := by
  unfold noteMissing
  split
  · exact goesAt_note (hf _ (hs.congr rfl rfl) rfl rfl)
  · exact hf s hs rfl rfl

/-- An operand is spliced behind nodes that start with a token. -/
theorem goesAt_splice {β : Type} {dest src : Nodes} {f : Nodes → Comp β}
    {R : β → CUPState → Prop} (hs : Sound s) (hd : dest.buf = .live ∧ Headed dest.items)
    (hsrc : Usable src)
    (hf : ∀ v s', Sound s' → s'.scopes = s.scopes → s'.text = s.text →
      v.buf = .live ∧ Headed v.items → GoesAt s' (f v) R) :
    GoesAt s (splice dest src >>= f) R := by
  unfold splice
  rw [Run.bind_assoc]
  refine goesAt_noteMissing hs fun s' hs' hscopes htext => ?_
  obtain ⟨v, hv, -, more, hitems, hlive⟩ := pushVector_eq (.inr hd.1) hsrc
  rw [hv]
  exact hf v s' hs' hscopes htext ⟨hlive hd.1, by rw [hitems]; exact hd.2.append more⟩

theorem statementWith_consumes (hrec : Consumes n rec) (hs : Sound s) (hw : s.weight < n) :
    GoesAt s (statementWith rec) (Taken s) := by
  unfold statementWith
  refine goesAt_bind (hrec s hs hw cupDefPower (Nat.le_refl _)) fun v s' hs' _ h => ?_
  refine goesAt_get ?_
  split
  · refine goesAt_skip hs' fun s'' hs'' _ hle => goesAt_pure hs'' ⟨?_, h.2⟩
    omega
  · exact goesAt_pure hs' h

/-- A statement and then the rest. -/
theorem goesAt_statement {β : Type} {f : Nodes → Comp β} {R : β → CUPState → Prop}
    (hrec : Consumes n rec) (hs : Sound s) (hw : s.weight < n)
    (hf : ∀ v s', Sound s' → s.scopes.length ≤ s'.scopes.length → s'.weight < s.weight →
      Usable v → GoesAt s' (f v) R) : GoesAt s (statementWith rec >>= f) R :=
  goesAt_bind (statementWith_consumes hrec hs hw) fun v s' hs' hle h => hf v s' hs' hle h.1 h.2

theorem importCase_takes (hs : Sound s) (ht : s.token ≠ .tEof) :
    GoesAt s (importCase host) (Taken s) := by
  unfold importCase
  refine goesAt_next hs ht fun s₁ hs₁ _ hw₁ => goesAt_get ?_
  split
  · exact goesAt_pure hs₁ ⟨hw₁, usable_empty⟩
  · refine goesAt_stays (importModule_stays host) hs₁ fun _ s₂ hs₂ _ htext _ => ?_
    refine goesAt_skip hs₂ fun s₃ hs₃ _ hle => goesAt_pure hs₃ ⟨?_, usable_empty⟩
    rw [weight_of_text htext] at hle
    omega

theorem externalLoop_ends (m : Nat) (hs : Sound s) (hm : s.weight < m) :
    GoesAt s (externalLoop host m) fun _ s' => s'.weight ≤ s.weight := by
  induction m generalizing s with
  | zero => omega
  | succ m ih =>
    unfold externalLoop
    refine goesAt_get ?_
    split
    · rename_i name htok hpay
      have ht : s.token ≠ .tEof := by
        rw [htok]
        decide
      refine goesAt_next hs ht fun s₁ hs₁ _ hw₁ => goesAt_get ?_
      split
      · exact goesAt_pure hs₁ (Nat.le_of_lt hw₁)
      · refine goesAt_stays (externalSymbol_stays host _ _) hs₁ fun _ s₂ hs₂ _ htext _ => ?_
        refine goesAt_skip hs₂ fun s₃ hs₃ _ hle => ?_
        rw [weight_of_text htext] at hle
        refine goesAt_mono (ih hs₃ (by omega)) fun _ s₄ _ _ h => ?_
        omega
    · exact goesAt_pure hs (Nat.le_refl _)

theorem externalCase_takes (hs : Sound s) (ht : s.token ≠ .tEof) (hn : s.weight ≤ n) :
    GoesAt s (externalCase host n) (Taken s) := by
  unfold externalCase
  refine goesAt_next hs ht fun s₁ hs₁ _ hw₁ => goesAt_get ?_
  split
  · exact goesAt_pure hs₁ ⟨hw₁, usable_empty⟩
  · refine goesAt_stays (externalModule_stays host) hs₁ fun _ s₂ hs₂ _ htext _ => ?_
    refine goesAt_skip hs₂ fun s₃ hs₃ _ hle => ?_
    rw [weight_of_text htext] at hle
    refine goesAt_bind (externalLoop_ends n hs₃ (by omega)) fun _ s₄ hs₄ _ hle' => ?_
    exact goesAt_pure hs₄ ⟨by omega, usable_empty⟩

theorem goesAt_pushLoc {β : Type} {v : Nodes} {loc : Loc} {f : Nodes → Comp β}
    {R : β → CUPState → Prop} (hv : Fresh v)
    (hf : ∀ w, w.buf = .live → w.items = v.items ++ [.tok loc] → GoesAt s (f w) R) :
    GoesAt s (pushLoc v loc >>= f) R := by
  obtain ⟨c, hc⟩ := pushLoc_eq hv loc
  rw [hc]
  exact hf _ rfl rfl

theorem goesAt_pushNode2 {β : Type} {v : Nodes} {k : Node2} {f : Nodes → Comp β}
    {R : β → CUPState → Prop} (hv : Fresh v)
    (hf : ∀ w, w.buf = .live → w.items = v.items ++ k.nodes → GoesAt s (f w) R) :
    GoesAt s (pushNode2 v k >>= f) R := by
  obtain ⟨c, hc⟩ := pushNode2_eq hv k
  rw [hc]
  exact hf _ rfl rfl

theorem goesAt_fpushNode {β : Type} {v : Nodes} {k : Node} {f : Nodes → Comp β}
    {R : β → CUPState → Prop} (hv : Fresh v)
    (hf : ∀ w, w.buf = .live → w.items = k :: v.items → GoesAt s (f w) R) :
    GoesAt s (fpushNode v k >>= f) R := by
  obtain ⟨c, hc⟩ := fpushNode_eq hv k
  rw [hc]
  exact hf _ rfl rfl

/-- One node of a kind that has no number behind it. -/
theorem headed_one {v : Nodes} {loc : Loc} (hv : v.items = ({} : Nodes).items ++ [.tok loc])
    (h : loc.token ≠ .tComma ∧ loc.token ≠ .nBlock ∧ loc.token ≠ .nArray) : Headed v.items := by
  rw [hv]
  exact headed_loc [] h

/-- The token and the payload of one node. -/
theorem headed_two {v : Nodes} {k : Node2} (hv : v.items = ({} : Nodes).items ++ k.nodes)
    (h : k.token = .tComma ∨ k.token = .nBlock ∨ k.token = .nArray → ∃ j, k.payload = .value j) :
    Headed v.items := by
  rw [hv]
  change Headed k.nodes
  rw [← List.append_nil k.nodes]
  exact headed_node2 [] h

variable {k : Node2}

theorem leafCase_takes (hs : Sound s) (ht : s.token ≠ .tEof)
    (hk : k.loc.token ≠ .tComma ∧ k.loc.token ≠ .nBlock ∧ k.loc.token ≠ .nArray) :
    GoesAt s (leafCase k) (Taken s) := by
  unfold leafCase
  refine goesAt_pushLoc (.inl rfl) fun v hlive hitems => ?_
  exact goesAt_next hs ht fun s₁ hs₁ _ hw => goesAt_pure hs₁ ⟨hw, .inr ⟨hlive, headed_one hitems hk⟩⟩

theorem stringCase_takes (hs : Sound s) (ht : s.token ≠ .tEof) (hk : k.token = .tString) :
    GoesAt s (stringCase k) (Taken s) := by
  unfold stringCase
  refine goesAt_pushNode2 (.inl rfl) fun v hlive hitems => ?_
  have hhead : Headed v.items := headed_two hitems (by simp [hk])
  exact goesAt_next hs ht fun s₁ hs₁ _ hw => goesAt_pure hs₁ ⟨hw, .inr ⟨hlive, hhead⟩⟩

theorem identifierCase_takes (hs : Sound s) (hk : s.token = .tIdentifier) :
    GoesAt s (identifierCase s.nodes) (Taken s) := by
  have ht : s.token ≠ .tEof := by
    rw [hk]
    decide
  obtain ⟨str, hstr⟩ := hs.name hk
  unfold identifierCase
  refine goesAt_pushNode2 (.inl rfl) fun v hlive hitems => ?_
  have htok : s.nodes.token = .tIdentifier := hk
  have hhead : Headed v.items := headed_two hitems (by simp [htok])
  rw [hstr]
  refine goesAt_get ?_
  split
  · refine goesAt_stays (declare_stays str) hs fun _ s₁ hs₁ _ htext _ => ?_
    have ht₁ : s₁.token ≠ .tEof := by
      unfold CUPState.token
      rw [nodes_of_text htext]
      exact ht
    refine goesAt_next hs₁ ht₁ fun s₂ hs₂ _ hw => goesAt_pure hs₂ ⟨?_, .inr ⟨hlive, hhead⟩⟩
    rw [weight_of_text htext] at hw
    exact hw
  · exact goesAt_next hs ht fun s₁ hs₁ _ hw => goesAt_pure hs₁ ⟨hw, .inr ⟨hlive, hhead⟩⟩

theorem numberCase_takes (hs : Sound s) (ht : s.token ≠ .tEof) (hk : k.token = .tNumber) :
    GoesAt s (numberCase k) (Taken s) := by
  have hleaf : ∀ {j : Node2} {s' : CUPState}, Sound s' → s'.weight < s.weight →
      (j.token = .tDouble ∨ j.token = .tNumber) → GoesAt s' (pushNode2 {} j) (Taken s) := by
    intro j s' hs' hw hj
    rw [← Run.bind_pure (pushNode2 {} j)]
    refine goesAt_pushNode2 (.inl rfl) fun v hlive hitems => ?_
    refine goesAt_pure hs' ⟨hw, .inr ⟨hlive, headed_two hitems fun h => ?_⟩⟩
    rcases hj with hj | hj
    · simp [hj] at h
    · simp [hj] at h
  unfold numberCase
  refine goesAt_next hs ht fun s₁ hs₁ _ hw₁ => goesAt_get ?_
  split
  · refine goesAt_skip hs₁ fun s₂ hs₂ _ hw₂ => goesAt_get ?_
    dsimp only
    split
    · refine goesAt_skip hs₂ fun s₃ hs₃ _ hw₃ => ?_
      exact hleaf hs₃ (by omega) (.inl rfl)
    · exact hleaf hs₂ (by omega) (.inl rfl)
  · exact hleaf hs₁ hw₁ (.inr hk)

/-- The current token is overwritten by another one. -/
theorem Sound.setNodes (hs : Sound s) {t : CTType} (hread : (s.nodes.setToken t).Read)
    (ht : t ≠ .tIdentifier) : Sound { s with nodes := s.nodes.setToken t } where
  walk := hs.walk
  name h := absurd h ht
  read := hread
  vars := hs.vars
  parents := hs.parents
  root := hs.root
  outer := hs.outer
  scope := hs.scope
  types := hs.types
  tempmem := hs.tempmem
  gaps := hs.gaps

/-- A token of the parser instead of the token that was read. -/
theorem goesAt_setToken {β : Type} {f : Unit → Comp β} {R : β → CUPState → Prop} {t : CTType}
    (hs : Sound s) (hpay : s.nodes.payload = .value 0) (ht : s.token ≠ .tEof)
    (hid : t ≠ .tIdentifier) (hne : t ≠ .tEof)
    (hf : ∀ s', Sound s' → s'.scopes = s.scopes → s'.weight = s.weight → s'.token ≠ .tEof →
      GoesAt s' (f ()) R) :
    GoesAt s ((Run.modify fun s' => { s' with nodes := s.nodes.setToken t }) >>= f) R := by
  have hne' : CUPState.token { s with nodes := s.nodes.setToken t } ≠ .tEof := hne
  refine goesAt_modify rfl (hf _ (hs.setNodes (fun _ _ _ => hpay) hid) rfl ?_ hne')
  rw [weight_of_ne ht, weight_of_ne hne']

theorem unaryCase_takes (hrec : Consumes n rec) (hs : Sound s) (hn : s.weight ≤ n)
    (hpay : s.nodes.payload = .value 0) (ht : s.token ≠ .tEof) {t : CTType}
    (htok : t = .nUnary ∨ t = .tNot) :
    GoesAt s (unaryCase rec (s.nodes.setToken t)) (Taken s) := by
  have hkind : t ≠ .tIdentifier ∧ t ≠ .tEof ∧ t ≠ .tComma ∧ t ≠ .nBlock ∧ t ≠ .nArray := by
    rcases htok with rfl | rfl <;> decide
  unfold unaryCase
  refine goesAt_setToken hs hpay ht hkind.1 hkind.2.1 fun s₁ hs₁ _ hw₁ ht₁ => ?_
  refine goesAt_pushLoc (.inl rfl) fun v hlive hitems => ?_
  have hhead : Headed v.items := headed_one hitems hkind.2.2
  refine goesAt_next hs₁ ht₁ fun s₂ hs₂ _ hw₂ => ?_
  refine goesAt_bind (hrec s₂ hs₂ (by omega) cupDefPower (Nat.le_refl _)) fun w s₃ hs₃ _ h => ?_
  rw [← Run.bind_pure (splice v w)]
  refine goesAt_splice hs₃ ⟨hlive, hhead⟩ h.2 fun u s₄ hs₄ _ htext hu => ?_
  refine goesAt_pure hs₄ ⟨?_, .inr hu⟩
  rw [weight_of_text htext]
  omega

theorem returnCase_takes (hrec : Consumes n rec) (hs : Sound s) (hn : s.weight ≤ n)
    (ht : s.token ≠ .tEof)
    (hk : k.loc.token ≠ .tComma ∧ k.loc.token ≠ .nBlock ∧ k.loc.token ≠ .nArray) :
    GoesAt s (returnCase rec k) (Taken s) := by
  unfold returnCase
  refine goesAt_pushLoc (.inl rfl) fun v hlive hitems => ?_
  have hhead : Headed v.items := headed_one hitems hk
  refine goesAt_next hs ht fun s₁ hs₁ _ hw₁ => ?_
  refine goesAt_statement hrec hs₁ (by omega) fun w s₂ hs₂ _ hw₂ husable => ?_
  rw [← Run.bind_pure (splice v w)]
  refine goesAt_splice hs₂ ⟨hlive, hhead⟩ husable fun u s₃ hs₃ _ htext hu => ?_
  refine goesAt_pure hs₃ ⟨?_, .inr hu⟩
  rw [weight_of_text htext]
  omega

theorem whileCase_takes (hrec : Consumes n rec) (hs : Sound s) (hn : s.weight ≤ n)
    (ht : s.token ≠ .tEof)
    (hk : k.loc.token ≠ .tComma ∧ k.loc.token ≠ .nBlock ∧ k.loc.token ≠ .nArray) :
    GoesAt s (whileCase rec k) (Taken s) := by
  unfold whileCase
  refine goesAt_pushLoc (.inl rfl) fun v hlive hitems => ?_
  have hhead : Headed v.items := headed_one hitems hk
  refine goesAt_next hs ht fun s₁ hs₁ _ hw₁ => ?_
  refine goesAt_statement hrec hs₁ (by omega) fun cond s₂ hs₂ _ hw₂ hcond => ?_
  refine goesAt_splice hs₂ ⟨hlive, hhead⟩ hcond fun v s₃ hs₃ _ htext hv => ?_
  have hw₃ := weight_of_text htext
  refine goesAt_statement hrec hs₃ (by omega) fun body s₄ hs₄ _ hw₄ hbody => ?_
  rw [← Run.bind_pure (splice v body)]
  refine goesAt_splice hs₄ hv hbody fun u s₅ hs₅ _ htext' hu => ?_
  refine goesAt_pure hs₅ ⟨?_, .inr hu⟩
  rw [weight_of_text htext']
  omega

theorem ifCase_takes (hrec : Consumes n rec) (hs : Sound s) (hn : s.weight ≤ n)
    (ht : s.token ≠ .tEof)
    (hk : k.loc.token ≠ .tComma ∧ k.loc.token ≠ .nBlock ∧ k.loc.token ≠ .nArray) :
    GoesAt s (ifCase rec k) (Taken s) := by
  unfold ifCase
  refine goesAt_pushLoc (.inl rfl) fun v hlive hitems => ?_
  have hhead : Headed v.items := headed_one hitems hk
  refine goesAt_next hs ht fun s₁ hs₁ _ hw₁ => ?_
  refine goesAt_statement hrec hs₁ (by omega) fun cond s₂ hs₂ _ hw₂ hcond => ?_
  refine goesAt_splice hs₂ ⟨hlive, hhead⟩ hcond fun v s₃ hs₃ _ htext hv => ?_
  have hw₃ := weight_of_text htext
  refine goesAt_statement hrec hs₃ (by omega) fun body s₄ hs₄ _ hw₄ hbody => ?_
  refine goesAt_splice hs₄ hv hbody fun v s₅ hs₅ _ htext' hv => goesAt_get ?_
  have hw₅ := weight_of_text htext'
  dsimp only
  split
  · rename_i helse
    refine goesAt_fpushNode (.inr hv.1) fun w hlive' hitems' => ?_
    have hhead' : Headed w.items := by
      have helse' : s₅.nodes.loc.token = .tElse := helse
      rw [hitems']
      exact headed_loc _ (by rw [helse']; decide)
    refine goesAt_skip hs₅ fun s₆ hs₆ _ hw₆ => ?_
    refine goesAt_statement hrec hs₆ (by omega) fun other s₇ hs₇ _ hw₇ hother => ?_
    rw [← Run.bind_pure (splice w other)]
    refine goesAt_splice hs₇ ⟨hlive', hhead'⟩ hother fun u s₈ hs₈ _ htext₈ hu => ?_
    refine goesAt_pure hs₈ ⟨?_, .inr hu⟩
    rw [weight_of_text htext₈]
    omega
  · exact goesAt_pure hs₅ ⟨by omega, .inr hv⟩

/-- `expectAndNext` takes the token or ends the process. -/
theorem expectAndNext_skips (t : CTType) (hs : Sound s) :
    GoesAt s (expectAndNext t) fun _ s' => s'.weight ≤ s.weight := by
  unfold expectAndNext
  refine goesAt_get ?_
  split
  · exact goesAt_exit hs
  · rw [← Run.bind_pure (getToken true)]
    exact goesAt_skip hs fun s' hs' _ hle => goesAt_pure hs' hle

theorem bracketCase_takes (hrec : Consumes n rec) (hs : Sound s) (hn : s.weight ≤ n)
    (ht : s.token ≠ .tEof) : GoesAt s (bracketCase rec) (Taken s) := by
  unfold bracketCase
  refine goesAt_next hs ht fun s₁ hs₁ _ hw₁ => goesAt_get ?_
  dsimp only
  split
  · refine goesAt_statement hrec hs₁ (by omega) fun v s₂ hs₂ _ hw₂ hv => ?_
    refine goesAt_bind (expectAndNext_skips .tCrb hs₂) fun _ s₃ hs₃ _ hw₃ => ?_
    exact goesAt_pure hs₃ ⟨by omega, hv⟩
  · rename_i htok
    have htok : s₁.nodes.token = .tCrb := not_not.mp htok
    have hpay : s₁.nodes.payload = .value 0 :=
      hs₁.read (by rw [htok]; decide) (by rw [htok]; decide) (by rw [htok]; decide)
    refine goesAt_pushNode2 (.inl rfl) fun v hlive hitems => ?_
    have hhead : Headed v.items := headed_two hitems fun _ => ⟨0, hpay⟩
    refine goesAt_skip hs₁ fun s₂ hs₂ _ hw₂ => goesAt_pure hs₂ ⟨by omega, .inr ⟨hlive, hhead⟩⟩

/-- Nodes of a block, list or array with their number behind the first token. -/
def Counted (v : Nodes) : Prop := v.buf = .live ∧ ∃ a j rest, v.items = a :: .value j :: rest ∧
  ∃ loc, a = .tok loc

theorem Counted.headed {v : Nodes} (h : Counted v) : v.buf = .live ∧ Headed v.items := by
  obtain ⟨hlive, a, j, rest, hitems, loc, rfl⟩ := h
  exact ⟨hlive, loc, _, hitems, fun _ => ⟨j, rest, rfl⟩⟩

theorem Counted.setPayload {v : Nodes} (h : Counted v) (j : Nat) : Counted (setPayload v j) := by
  obtain ⟨hlive, a, i, rest, hitems, hloc⟩ := h
  refine ⟨hlive, a, j, rest, ?_, hloc⟩
  rw [Cup.setPayload, hitems]
  rfl

theorem counted_node2 {v : Nodes} {j : Nat} (hlive : v.buf = .live)
    (hitems : v.items = ({} : Nodes).items ++ k.nodes) (hpay : k.payload = .value j) : Counted v := by
  refine ⟨hlive, .tok k.loc, j, [], ?_, k.loc, rfl⟩
  rw [hitems, ← hpay]
  rfl

theorem Counted.push {v w : Nodes} (hv : Counted v) (hw : Usable w) :
    ∃ u, (Run.lift (pushVector 8 v w) : Comp Nodes) = pure u ∧ Counted u := by
  obtain ⟨u, hu, -, more, hitems, hlive⟩ := pushVector_eq (.inr hv.1) hw
  obtain ⟨hvlive, a, j, rest, hvitems, hloc⟩ := hv
  refine ⟨u, hu, hlive hvlive, a, j, rest ++ more, ?_, hloc⟩
  rw [hitems, hvitems]
  rfl

/-- A statement of a block or of a module. -/
theorem pushStatement_eq {v w : Nodes} (hv : Counted v) (hw : Usable w) :
    ∃ u, pushStatement v w = pure u ∧ Counted u := by
  unfold pushStatement
  split
  · have hcount := hv
    obtain ⟨hlive, a, j, rest, hitems, -⟩ := hcount
    rw [payloadValue_eq hlive hitems]
    exact (hv.setPayload (j + 1)).push hw
  · exact hv.push hw

theorem blockLoop_ends (hrec : Consumes n rec) (m : Nat) {v : Nodes} (hs : Sound s)
    (hn : s.weight < n) (hm : s.weight < m) (hv : Counted v) :
    GoesAt s (blockLoop rec m v) fun u s' => s'.weight ≤ s.weight ∧ Counted u := by
  induction m generalizing s v with
  | zero => omega
  | succ m ih =>
    unfold blockLoop
    refine goesAt_get ?_
    split
    · exact goesAt_pure hs ⟨Nat.le_refl _, hv⟩
    · refine goesAt_statement hrec hs hn fun w s₁ hs₁ _ hw₁ hw => ?_
      obtain ⟨u, hu, hcount⟩ := pushStatement_eq hv hw
      rw [hu, Run.pure_bind']
      refine goesAt_mono (ih hs₁ (by omega) (by omega) hcount) fun _ s₂ _ _ h => ⟨?_, h.2⟩
      have := h.1
      omega

theorem blockCase_takes (hrec : Consumes n rec) (hs : Sound s) (hn : s.weight ≤ n)
    (hpay : s.nodes.payload = .value 0) (ht : s.token ≠ .tEof) :
    GoesAt s (blockCase n rec (s.nodes.setToken .nBlock)) (Taken s) := by
  unfold blockCase
  refine goesAt_setToken hs hpay ht (by decide) (by decide) fun s₁ hs₁ _ hw₁ ht₁ => ?_
  refine goesAt_pushNode2 (.inl rfl) fun v hlive hitems => ?_
  have hv : Counted v := counted_node2 hlive hitems hpay
  refine goesAt_next hs₁ ht₁ fun s₂ hs₂ _ hw₂ => ?_
  refine goesAt_stays scopeEnter_stays hs₂ fun _ s₃ hs₃ _ htext _ => ?_
  have hw₃ := weight_of_text htext
  refine goesAt_bind (blockLoop_ends hrec n hs₃ (by omega) (by omega) hv) fun u s₄ hs₄ _ h => ?_
  obtain ⟨hw₄, hu⟩ := h
  refine goesAt_skip hs₄ fun s₅ hs₅ _ hw₅ => ?_
  refine goesAt_stays scopeLeave_stays hs₅ fun _ s₆ hs₆ _ htext' _ => ?_
  refine goesAt_pure hs₆ ⟨?_, .inr hu.headed⟩
  rw [weight_of_text htext']
  omega

/-- `isList` reads the first token when there is one. -/
theorem isList_eq {v : Nodes} (hv : Usable v) : ∃ b, isList v = pure b ∧
    (b = true → ∃ a j rest, v.items = a :: .value j :: rest ∧ v.buf = .live) := by
  unfold isList
  rcases hv with rfl | ⟨hlive, loc, rest, hitems, hcount⟩
  · exact ⟨false, rfl, fun h => by cases h⟩
  · rw [if_neg (by simp [hlive]), headToken_eq hlive hitems, Run.pure_bind']
    refine ⟨_, rfl, fun h => ?_⟩
    obtain ⟨j, rest', rfl⟩ := hcount (.inl (of_decide_eq_true h))
    exact ⟨_, j, rest', hitems, hlive⟩

theorem arrayElements_ends (hrec : Consumes n rec) {v : Nodes} (hs : Sound s) (hn : s.weight < n)
    (hv : Counted v) : GoesAt s (arrayElements rec v k) fun u s' => s'.weight ≤ s.weight ∧ Counted u := by
  have hempty : ∀ {s'}, Sound s' → s'.weight ≤ s.weight →
      GoesAt s' (pushNode2 v { k.setToken .tComma with payload := .value 0 }) fun u s' =>
        s'.weight ≤ s.weight ∧ Counted u := by
    intro s' hs' hw
    rw [← Run.bind_pure (pushNode2 v _)]
    refine goesAt_pushNode2 (.inr hv.1) fun u hlive hitems => goesAt_pure hs' ⟨hw, ?_⟩
    obtain ⟨-, a, j, rest, hvitems, hloc⟩ := hv
    exact ⟨hlive, a, j, _, by rw [hitems, hvitems]; rfl, hloc⟩
  unfold arrayElements
  dsimp only
  refine goesAt_get ?_
  split
  · refine goesAt_bind (hrec s hs hn cupDefPower (Nat.le_refl _)) fun w s₁ hs₁ _ h => ?_
    obtain ⟨hw₁, hw⟩ := h
    split
    · exact hempty hs₁ (by omega)
    · obtain ⟨b, hb, hlist⟩ := isList_eq hw
      rw [hb, Run.pure_bind']
      cases b with
      | true =>
        obtain ⟨a, j, rest, hitems, hlive⟩ := hlist rfl
        rw [if_pos rfl, payloadValue_eq hlive hitems, Run.pure_bind']
        obtain ⟨u, hu, hcount⟩ := (hv.setPayload j).push hw
        rw [hu]
        exact goesAt_pure hs₁ ⟨by omega, hcount⟩
      | false =>
        rw [if_neg (by decide)]
        refine goesAt_note ?_
        obtain ⟨u, hu, hcount⟩ := (hv.setPayload 1).push hw
        rw [hu]
        exact goesAt_pure (hs₁.congr rfl rfl) ⟨Nat.le_of_lt hw₁, hcount⟩
  · exact hempty hs (Nat.le_refl _)

theorem arrayCase_takes (hrec : Consumes n rec) (hs : Sound s) (hn : s.weight ≤ n)
    (hpay : s.nodes.payload = .value 0) (ht : s.token ≠ .tEof) :
    GoesAt s (arrayCase rec (s.nodes.setToken .nArray)) (Taken s) := by
  unfold arrayCase
  refine goesAt_setToken hs hpay ht (by decide) (by decide) fun s₁ hs₁ _ hw₁ ht₁ => ?_
  refine goesAt_pushNode2 (.inl rfl) fun v hlive hitems => ?_
  have hv : Counted v := counted_node2 hlive hitems hpay
  refine goesAt_next hs₁ ht₁ fun s₂ hs₂ _ hw₂ => ?_
  refine goesAt_bind (arrayElements_ends hrec hs₂ (by omega) hv) fun u s₃ hs₃ _ h => ?_
  obtain ⟨hw₃, hu⟩ := h
  have hcount := hu
  obtain ⟨hulive, a, j, rest, huitems, -⟩ := hcount
  rw [payloadValue_eq hulive huitems, Run.pure_bind']
  refine goesAt_get (goesAt_modify rfl (goesAt_note ?_))
  refine goesAt_bind (expectAndNext_skips .tCsb (hs₃.congr rfl rfl)) fun _ s₄ hs₄ _ hw₄ => ?_
  have hw₄ : s₄.weight ≤ s₃.weight := hw₄
  exact goesAt_pure hs₄ ⟨by omega, .inr (hu.setPayload _).headed⟩

theorem functionHeader_eq {v args : Nodes} (comma : Node2) (hv : v.buf = .live ∧ Headed v.items)
    (hargs : Usable args) :
    ∃ r, functionHeader v args comma = pure r ∧ r.1.buf = .live ∧ Headed r.1.items := by
  unfold functionHeader
  obtain ⟨b, hb, hlist⟩ := isList_eq hargs
  rw [hb, Run.pure_bind']
  cases b with
  | true =>
    obtain ⟨a, j, rest, hitems, hlive⟩ := hlist rfl
    rw [if_pos rfl, payloadValue_eq hlive hitems]
    exact ⟨(v, j), rfl, hv⟩
  | false =>
    rw [if_neg (by decide)]
    obtain ⟨c, hc⟩ := pushNode2_eq (.inr hv.1) { comma.setToken .tComma with payload := .value 1 }
    rw [hc]
    exact ⟨_, rfl, rfl, hv.2.append _⟩

theorem functionBody_takes (hrec : Consumes n rec) (hs : Sound s) (hn : s.weight ≤ n)
    (ht : s.token ≠ .tEof) {v : Nodes} (hv : v.buf = .live ∧ Headed v.items) (name : CStr) :
    GoesAt s (functionBody host rec v name) (Taken s) := by
  have hdeclare : Stays (declareFunction name) fun _ => True := by
    intro s hs
    obtain ⟨r, hr, hat⟩ := varLookup_ok hs name.bytes hs.scope
    unfold declareFunction
    refine goesAt_get ?_
    rw [hr]
    cases r with
    | none => exact declare_stays name s hs
    | some i =>
      obtain ⟨var, hvar⟩ := hat i rfl
      change GoesAt s (Run.lift (s.vars.at i) >>= _) _
      rw [hvar]
      change GoesAt s (if _ then _ else _) _
      split
      · exact goesAt_exit hs
      · exact declare_stays name s hs
  unfold functionBody
  refine goesAt_stays hdeclare hs fun _ s₁ hs₁ _ htext₁ _ => ?_
  have hw₁ := weight_of_text htext₁
  have ht₁ : s₁.token ≠ .tEof := by
    unfold CUPState.token
    rw [nodes_of_text htext₁]
    exact ht
  refine goesAt_next hs₁ ht₁ fun s₂ hs₂ _ hw₂ => ?_
  refine goesAt_stays scopeEnter_stays hs₂ fun _ s₃ hs₃ _ htext₃ _ => goesAt_get ?_
  have hw₃ := weight_of_text htext₃
  refine goesAt_statement hrec hs₃ (by omega) fun args s₄ hs₄ _ hw₄ hargs => ?_
  obtain ⟨r, hr, hr'⟩ := functionHeader_eq s₃.nodes hv hargs
  rw [hr, Run.pure_bind']
  refine goesAt_stays (functionType_stays host r.2) hs₄ fun type s₅ hs₅ _ htext₅ _ => ?_
  have hw₅ := weight_of_text htext₅
  refine goesAt_stays (setVarType_stays name type) hs₅ fun _ s₆ hs₆ _ htext₆ _ => ?_
  have hw₆ := weight_of_text htext₆
  refine goesAt_splice hs₆ hr' hargs fun v s₇ hs₇ _ htext₇ hv => ?_
  have hw₇ := weight_of_text htext₇
  refine goesAt_statement hrec hs₇ (by omega) fun block s₈ hs₈ _ hw₈ hblock => ?_
  refine goesAt_splice hs₈ hv hblock fun u s₉ hs₉ _ htext₉ hu => ?_
  have hw₉ := weight_of_text htext₉
  refine goesAt_stays scopeLeave_stays hs₉ fun _ s' hs' _ htext' _ => ?_
  refine goesAt_pure hs' ⟨?_, .inr hu⟩
  rw [weight_of_text htext']
  omega

theorem functionCase_takes (hrec : Consumes n rec) (hs : Sound s) (hn : s.weight ≤ n)
    (ht : s.token ≠ .tEof)
    (hk : k.loc.token ≠ .tComma ∧ k.loc.token ≠ .nBlock ∧ k.loc.token ≠ .nArray) :
    GoesAt s (functionCase host rec k) (Taken s) := by
  unfold functionCase
  refine goesAt_next hs ht fun s₁ hs₁ _ hw₁ => goesAt_get ?_
  dsimp only
  split
  · refine goesAt_skip hs₁ fun s₂ hs₂ _ hw₂ => goesAt_pure hs₂ ⟨by omega, usable_empty⟩
  · split
    · rename_i hname
      have ht₁ : s₁.token ≠ .tEof := by
        unfold CUPState.token
        rw [hname]
        decide
      obtain ⟨str, hstr⟩ := hs₁.name hname
      refine goesAt_pushLoc (.inl rfl) fun v hlive hitems => ?_
      have hhead : Headed v.items := headed_one hitems hk
      refine goesAt_pushNode2 (.inr hlive) fun w hlive' hitems' => ?_
      rw [hstr]
      have hw : w.buf = .live ∧ Headed w.items := ⟨hlive', by rw [hitems']; exact hhead.append _⟩
      refine goesAt_mono (functionBody_takes hrec hs₁ (by omega) ht₁ hw str) fun u s₂ _ _ h => ?_
      exact ⟨by omega, h.2⟩
    · exact goesAt_pure hs₁ ⟨hw₁, usable_empty⟩

/-- The `switch` on the current token. -/
theorem operand_takes (hrec : Consumes n rec) (hs : Sound s) (hn : s.weight ≤ n) :
    GoesAt s (operand host n rec s.nodes) fun r s' => Taken s r.1 s' := by
  have hdone : ∀ {x : Comp Nodes} {b : Bool}, GoesAt s x (Taken s) →
      GoesAt s (x >>= fun v => pure (v, b)) fun r s' => Taken s r.1 s' := fun hx =>
    goesAt_bind hx fun v s' hs' _ h => goesAt_pure hs' h
  -- the tokens that start an operand: none is the end, and most have no payload
  have hne : ∀ {t : CTType}, s.nodes.token = t → t ≠ .tEof → s.token ≠ .tEof := by
    rintro t rfl h
    exact h
  have hpay : ∀ {t : CTType}, s.nodes.token = t → t ≠ .tIdentifier ∧ t ≠ .tNumber ∧ t ≠ .tString →
      s.nodes.payload = .value 0 := by
    rintro t rfl h
    exact hs.read h.1 h.2.1 h.2.2
  have hkind : ∀ {t : CTType}, s.nodes.token = t → t ≠ .tComma ∧ t ≠ .nBlock ∧ t ≠ .nArray →
      s.nodes.loc.token ≠ .tComma ∧ s.nodes.loc.token ≠ .nBlock ∧ s.nodes.loc.token ≠ .nArray := by
    rintro t rfl h
    exact h
  unfold operand
  split
  · rename_i ht
    exact hdone (importCase_takes hs (hne ht (by decide)))
  · rename_i ht
    exact hdone (externalCase_takes hs (hne ht (by decide)) hn)
  · rename_i ht
    exact hdone (functionCase_takes hrec hs hn (hne ht (by decide)) (hkind ht (by decide)))
  · rename_i ht
    exact hdone (leafCase_takes hs (hne ht (by decide)) (hkind ht (by decide)))
  · rename_i ht
    exact hdone (leafCase_takes hs (hne ht (by decide)) (hkind ht (by decide)))
  · rename_i ht
    exact hdone (leafCase_takes hs (hne ht (by decide)) (hkind ht (by decide)))
  · rename_i ht
    exact hdone (leafCase_takes hs (hne ht (by decide)) (hkind ht (by decide)))
  · rename_i ht
    exact hdone (whileCase_takes hrec hs hn (hne ht (by decide)) (hkind ht (by decide)))
  · rename_i ht
    exact hdone (returnCase_takes hrec hs hn (hne ht (by decide)) (hkind ht (by decide)))
  · rename_i ht
    exact hdone (unaryCase_takes hrec hs hn (hpay ht (by decide)) (hne ht (by decide)) (.inl rfl))
  · rename_i ht
    have hself : s.nodes = s.nodes.setToken .tNot := by
      rw [← ht]
      rfl
    rw [hself]
    exact hdone (unaryCase_takes hrec hs hn (hpay ht (by decide)) (hne ht (by decide)) (.inr rfl))
  · rename_i ht
    exact hdone (identifierCase_takes hs ht)
  · rename_i ht
    exact hdone (stringCase_takes hs (hne ht (by decide)) ht)
  · rename_i ht
    exact hdone (numberCase_takes hs (hne ht (by decide)) ht)
  · rename_i ht
    exact hdone (bracketCase_takes hrec hs hn (hne ht (by decide)))
  · rename_i ht
    exact hdone (blockCase_takes hrec hs hn (hpay ht (by decide)) (hne ht (by decide)))
  · rename_i ht
    exact hdone (arrayCase_takes hrec hs hn (hpay ht (by decide)) (hne ht (by decide)))
  · rename_i ht
    exact hdone (ifCase_takes hrec hs hn (hne ht (by decide)) (hkind ht (by decide)))
  · exact hs.gaps
  · exact goesAt_exit hs

end Operands

/-! ## Operators -/

section Operators

variable {host : Host} {n : Nat} {rec : Nat → Comp Nodes} {s : CUPState} {op : Node2}
  {left right : Nodes}

/-- An operator that is applied leaves a tree and not more text. -/
abbrev Applied (s : CUPState) (v : Nodes) (s' : CUPState) : Prop := s'.weight ≤ s.weight ∧ Usable v

/-- The nodes of the right operand behind those of the left one. -/
theorem goesAt_pushRight (hs : Sound s) {s₀ : CUPState} (hw : s.weight ≤ s₀.weight)
    (hl : left.buf = .live ∧ Headed left.items) (hr : Usable right) :
    GoesAt s (Run.lift (pushVector 8 left right)) (Applied s₀) := by
  obtain ⟨v, hv, -, more, hitems, hlive⟩ := pushVector_eq (.inr hl.1) hr
  rw [hv]
  exact goesAt_pure hs ⟨hw, .inr ⟨hlive hl.1, by rw [hitems]; exact hl.2.append more⟩⟩

theorem binaryOp_applies (hs : Sound s) {s₀ : CUPState} (hw : s.weight ≤ s₀.weight)
    (hl : Usable left) (hr : Usable right)
    (hk : op.loc.token ≠ .tComma ∧ op.loc.token ≠ .nBlock ∧ op.loc.token ≠ .nArray) :
    GoesAt s (binaryOp op left right) (Applied s₀) := by
  unfold binaryOp
  refine goesAt_fpushNode hl.fresh fun v hlive hitems => ?_
  exact goesAt_pushRight hs hw ⟨hlive, by rw [hitems]; exact headed_loc _ hk⟩ hr

theorem indexOp_applies (hs : Sound s) (hl : Usable left) (hr : Usable right)
    (hk : op.loc.token ≠ .tComma ∧ op.loc.token ≠ .nBlock ∧ op.loc.token ≠ .nArray) :
    GoesAt s (indexOp op left right) (Applied s) := by
  unfold indexOp
  refine goesAt_get ?_
  split
  · exact goesAt_exit hs
  · exact goesAt_skip hs fun s' hs' _ hw => binaryOp_applies hs' hw hl hr hk

theorem eqOp_applies (hs : Sound s) (hl : Usable left) (hr : Usable right)
    (hk : op.loc.token ≠ .tComma ∧ op.loc.token ≠ .nBlock ∧ op.loc.token ≠ .nArray) :
    GoesAt s (eqOp op left right) (Applied s) := by
  unfold eqOp
  refine goesAt_fpushNode hr.fresh fun v hlive hitems => ?_
  obtain ⟨c, hc⟩ := vectorFpush_live hl.fresh (b := v.items) (by simp [hitems])
  rw [pushFront_eq hlive hc]
  refine goesAt_pure hs ⟨Nat.le_refl _, .inr ⟨rfl, ?_⟩⟩
  rw [hitems]
  exact (headed_loc _ hk).append _

/-- The first token of a right operand that has nodes; a missing operand is an unguarded read. -/
theorem goesAt_operandToken {β : Type} {f : CTType → Comp β} {R : β → CUPState → Prop}
    (hr : Usable right)
    (hf : right.buf = .live → ∀ loc rest, right.items = .tok loc :: rest →
      (loc.token = .tComma → ∃ j rest', rest = .value j :: rest') → GoesAt s (f loc.token) R) :
    GoesAt s (operandToken right >>= f) R := by
  unfold operandToken
  rcases hr with rfl | ⟨hlive, loc, rest, hitems, hcount⟩
  · change s.gaps ++ [Gap.operand] ≠ []
    simp
  · rw [if_neg (by simp [hlive]), headToken_eq hlive hitems]
    exact hf hlive loc rest hitems fun h => hcount (.inl h)

theorem callOp_applies (hs : Sound s) (hl : Usable left) (hr : Usable right)
    (hk : op.loc.token ≠ .tComma ∧ op.loc.token ≠ .nBlock ∧ op.loc.token ≠ .nArray) :
    GoesAt s (callOp op left right) (Applied s) := by
  unfold callOp
  refine goesAt_get ?_
  split
  · exact goesAt_exit hs
  · refine goesAt_skip hs fun s' hs' _ hw => ?_
    refine goesAt_fpushNode hl.fresh fun v hlive hitems => ?_
    have hv : Headed v.items := by
      rw [hitems]
      exact headed_loc _ hk
    refine goesAt_operandToken hr fun _ loc rest _ _ => ?_
    split
    · refine goesAt_pushNode2 (.inr hlive) fun w hlive' hitems' => ?_
      exact goesAt_pushRight hs' hw ⟨hlive', by rw [hitems']; exact hv.append _⟩ hr
    · exact goesAt_pushRight hs' hw ⟨hlive, hv⟩ hr

theorem commaOp_applies (hs : Sound s) (hl : Usable left) (hr : Usable right) :
    GoesAt s (commaOp op left right) (Applied s) := by
  have hhead : ∀ {v w : Nodes} {j : Nat}, v.items = .value j :: left.items →
      w.items = .tok op.loc :: v.items → Headed w.items := by
    intro v w j hv hw
    rw [hw, hv]
    exact ⟨op.loc, _, rfl, fun _ => ⟨j, _, rfl⟩⟩
  unfold commaOp
  refine goesAt_operandToken hr fun hlive loc rest hitems hcount => ?_
  split
  · rename_i hcomma
    obtain ⟨j, rest', rfl⟩ := hcount hcomma
    rw [payloadValue_eq hlive hitems, Run.pure_bind']
    refine goesAt_fpushNode hl.fresh fun v hvlive hv => ?_
    refine goesAt_fpushNode (.inr hvlive) fun w hwlive hw => ?_
    have hheaded : Headed w.items := hhead hv hw
    rw [vectorFpop_two hlive hitems]
    by_cases hrest : rest' = []
    · -- the released vector of an empty list fails the assertion of `push_vector`
      rw [if_pos hrest]
      exact hs.gaps
    · rw [if_neg hrest]
      change GoesAt s (if rest' = [] then _ else _) _
      rw [if_neg hrest]
      obtain ⟨c, hc⟩ := pushVector_live (v := { right with items := rest' }) (.inr hwlive) hlive hrest
      rw [hc]
      exact goesAt_pure hs ⟨Nat.le_refl _, .inr ⟨rfl, hheaded.append _⟩⟩
  · refine goesAt_fpushNode hl.fresh fun v hvlive hv => ?_
    refine goesAt_fpushNode (.inr hvlive) fun w hwlive hw => ?_
    exact goesAt_pushRight hs (Nat.le_refl _) ⟨hwlive, hhead hv hw⟩ hr

/-- The second `switch` of `primary`. -/
theorem combine_applies (hs : Sound s) (hl : Usable left) (hr : Usable right) :
    GoesAt s (combine op left right) (Applied s) := by
  have hkind : ∀ {t : CTType}, op.token = t → t ≠ .tComma ∧ t ≠ .nBlock ∧ t ≠ .nArray →
      op.loc.token ≠ .tComma ∧ op.loc.token ≠ .nBlock ∧ op.loc.token ≠ .nArray := by
    rintro t rfl h
    exact h
  unfold combine
  split
  · rename_i ht
    exact callOp_applies hs hl hr (hkind ht (by decide))
  · rename_i ht
    exact eqOp_applies hs hl hr (hkind ht (by decide))
  · exact commaOp_applies hs hl hr
  · rename_i ht
    exact indexOp_applies hs hl hr (hkind ht (by decide))
  all_goals first
    | exact goesAt_exit hs
    | exact binaryOp_applies hs (Nat.le_refl _) hl hr (hkind ‹_› (by decide))

/-- The operand behind an operator of a power of at least 2. -/
theorem rightOperand_takes (hrec : Consumes n rec) (hs : Sound s) (hn : s.weight < n)
    (hpower : 2 ≤ getPower op.token) : GoesAt s (rightOperand rec op) (Applied s) := by
  unfold rightOperand
  refine goesAt_get ?_
  split
  · rw [← Run.bind_pure (pushNode2 {} _)]
    refine goesAt_pushNode2 (.inl rfl) fun v hlive hitems => goesAt_pure hs ⟨Nat.le_refl _, .inr ⟨hlive, ?_⟩⟩
    exact headed_two hitems fun _ => ⟨0, rfl⟩
  · have htwo : 2 ≤ if op.token = .tCall ∨ op.token = .tOsb then cupDefPower else getPower op.token := by
      split
      · exact Nat.le_refl _
      · exact hpower
    dsimp only
    generalize (if op.token = .tCall ∨ op.token = .tOsb then cupDefPower else getPower op.token) =
      power at htwo ⊢
    split
    · -- the member name is read with the root scope as the current one
      have houter := hs.outer
      have hroot : Sound { s with scope := 0 } := hs.setScope (by omega)
      refine goesAt_modify (g := fun t => { t with scope := 0 }) rfl ?_
      refine goesAt_bind (hrec _ hroot hn 16 (by decide)) fun v s' hs' hle h => ?_
      have hle : s.scopes.length ≤ s'.scopes.length := hle
      have hscope := hs.scope
      refine goesAt_modify (g := fun t => { t with scope := s.scope }) rfl ?_
      exact goesAt_pure (hs'.setScope (by omega)) ⟨Nat.le_of_lt h.1, h.2⟩
    · refine goesAt_mono (hrec s hs hn power htwo) fun v s' _ _ h => ?_
      exact ⟨Nat.le_of_lt h.1, h.2⟩

theorem operatorLoop_ends (hrec : Consumes n rec) {mpower : Nat} (hpower : 2 ≤ mpower) (m : Nat)
    (hs : Sound s) (hn : s.weight < n) (hm : s.weight < m) (hl : Usable left) :
    GoesAt s (operatorLoop rec mpower m left) (Applied s) := by
  induction m generalizing s left with
  | zero => omega
  | succ m ih =>
    unfold operatorLoop
    refine goesAt_get ?_
    dsimp only
    split
    · exact goesAt_exit hs
    · split
      · exact goesAt_pure hs ⟨Nat.le_refl _, hl⟩
      · rename_i hle
        have hle : mpower ≤ getPower s.nodes.token := Nat.not_lt.mp hle
        have ht : s.token ≠ .tEof := by
          intro h
          have htok : s.nodes.token = .tEof := h
          rw [htok] at hle
          have : mpower ≤ 0 := hle
          omega
        refine goesAt_noteMissing hs fun s₁ hs₁ _ htext₁ => ?_
        have hw₁ := weight_of_text htext₁
        have ht₁ : s₁.token ≠ .tEof := by
          unfold CUPState.token
          rw [nodes_of_text htext₁]
          exact ht
        refine goesAt_next hs₁ ht₁ fun s₂ hs₂ _ hw₂ => ?_
        refine goesAt_bind (rightOperand_takes hrec hs₂ (by omega) (by omega)) fun right s₃ hs₃ _ h => ?_
        obtain ⟨hw₃, hr⟩ := h
        refine goesAt_noteMissing hs₃ fun s₄ hs₄ _ htext₄ => ?_
        have hw₄ := weight_of_text htext₄
        refine goesAt_bind (combine_applies hs₄ hl hr) fun v s₅ hs₅ _ h => ?_
        obtain ⟨hw₅, hv⟩ := h
        refine goesAt_mono (ih hs₅ (by omega) (by omega) hv) fun u s₆ _ _ h => ⟨?_, h.2⟩
        have := h.1
        omega

end Operators

/-! ## The front end -/

/-- The depth `n` is enough for a text of a weight below `n`, and a primary that returns has taken
    a token. -/
theorem primaryFuel_consumes (host : Host) (n : Nat) : Consumes n (primaryFuel host n) := by
  induction n with
  | zero => exact fun s _ h => absurd h (Nat.not_lt_zero _)
  | succ n ih =>
    intro s hs hn mpower hpower
    unfold primaryFuel
    refine goesAt_get ?_
    refine goesAt_bind (operand_takes ih hs (by omega)) fun r s₁ hs₁ _ h => ?_
    obtain ⟨hw₁, hr⟩ := h
    rcases r with ⟨left, done⟩
    dsimp only
    split
    · exact goesAt_pure hs₁ ⟨hw₁, hr⟩
    · refine goesAt_mono (operatorLoop_ends ih hpower n hs₁ (by omega) (by omega) hr) fun v s₂ _ _ h => ?_
      exact ⟨Nat.lt_of_le_of_lt h.1 hw₁, h.2⟩

theorem primary_takes (host : Host) {s : CUPState} (hs : Sound s) {mpower : Nat} (hpower : 2 ≤ mpower) :
    GoesAt s (primary host mpower) (Taken s) := by
  unfold primary
  refine goesAt_get (primaryFuel_consumes host _ s hs ?_ mpower hpower)
  unfold CUPState.weight
  split <;> omega

theorem primary_consumes (host : Host) (n : Nat) : Consumes n (primary host) :=
  fun _ hs _ _ hm => primary_takes host hs hm

theorem moduleLoop_ends (host : Host) (m : Nat) {s : CUPState} {v : Nodes} (hs : Sound s)
    (hm : s.weight < m) (hv : Counted v) : GoesAt s (moduleLoop host m v) fun _ _ => True := by
  induction m generalizing s v with
  | zero => omega
  | succ m ih =>
    unfold moduleLoop
    refine goesAt_get ?_
    split
    · exact goesAt_pure hs trivial
    · unfold statement
      refine goesAt_statement (primary_consumes host _) hs (Nat.lt_succ_self _) fun w s₁ hs₁ _ hw₁ hw => ?_
      obtain ⟨u, hu, hcount⟩ := pushStatement_eq hv hw
      rw [hu, Run.pure_bind']
      exact ih hs₁ (by omega) hcount

/-- The front end on any text. -/
theorem parseNodes_goes (host : Host) (text : Bytes) {s : CUPState} (hs : TablesOk s) :
    GoesAt s (parseNodes host text) fun _ _ => True := by
  have hstart : Sound { s with
      priv := none, input := text, nodes := ⟨⟨.nBlock, 1, 1⟩, .value 0⟩ } :=
    { walk := ⟨[], rfl, whole_nil _⟩
      name := fun h => by cases h
      read := fun _ _ _ => rfl
      toTablesOk := hs.congr rfl }
  unfold parseNodes
  refine goesAt_modify rfl ?_
  refine goesAt_pushNode2 (.inl rfl) fun v hlive hitems => ?_
  have hv : Counted v := counted_node2 hlive hitems rfl
  refine goesAt_bind (goesAt_getToken false hstart) fun _ s₁ hs₁ _ hw => ?_
  exact moduleLoop_ends host _ hs₁ (Nat.lt_succ_of_le hw) hv

/-- The run returns, exits or fails an assertion. -/
def Ends {α : Type} : Lib.Res CUPState α → Prop
  | .ok _ _ => True
  | .stop (.exit _) _ => True
  | .stop (.assertion _) _ => True
  | .stop _ _ => False

theorem goesAt_ends_iff {α : Type} {s : CUPState} {x : Comp α} {Q : α → CUPState → Prop}
    (h : GoesAt s x Q) : Ends (x s) ↔ (x s).state.gaps = [] := by
  unfold GoesAt Run.Sat at h
  cases hx : x s with
  | ok a s' =>
    rw [hx] at h
    exact ⟨fun _ => h.1.gaps, fun _ => trivial⟩
  | stop e s' =>
    rw [hx] at h
    cases e with
    | exit n => exact ⟨fun _ => h, fun _ => trivial⟩
    | assertion t => exact ⟨fun _ => h, fun _ => trivial⟩
    | fault t => exact ⟨False.elim, fun hgaps => h hgaps⟩
    | fuel => exact h.elim

/-- What the host calls one after another on a state, as far as the front end goes. -/
inductive FrontState (host : Host) : CUPState → Prop where
  | new {s₀ s : CUPState} {addr : Nat} : cupNew host addr s₀ = .ok () s → FrontState host s
  | symbol {s s' : CUPState} {r : Int} {name : Bytes} {val : Nat} {type : Option TRef} :
      FrontState host s → cupAddSymbol name val type s = .ok r s' → FrontState host s'
  | parse {s s' : CUPState} {v : Nodes} {text : Bytes} :
      FrontState host s → parseNodes host text s = .ok v s' → FrontState host s'

theorem cupAddSymbol_tables {s s' : CUPState} {r : Int} {name : Bytes} {val : Nat}
    {type : Option TRef} (h : TablesOk s) (hs : cupAddSymbol name val type s = .ok r s') :
    TablesOk s' := by
  unfold cupAddSymbol at hs
  split at hs
  · cases hs
    exact h
  · rw [Run.get_bind] at hs
    have hid : TablesOk (idToken s name).1 := h.congr (idToken_frame s name).2.2.2.2
    rcases hpair : idToken s name with ⟨s₁, dup⟩
    rw [hpair] at hs hid
    dsimp only at hs hid
    rw [Run.set_bind] at hs
    cases dup with
    | none =>
      cases hs
      exact hid
    | some svalue =>
      obtain ⟨found, s₂, hl, hs⟩ := Run.bind_eq_ok.mp hs
      obtain ⟨hfound, rfl⟩ := Run.lift_eq_ok.mp hl
      cases found with
      | some v =>
        cases hs
        exact hid
      | none =>
        obtain ⟨u, s₂, hp, hs⟩ := Run.bind_eq_ok.mp hs
        cases hs
        obtain ⟨vars', map', hput, -, hinv⟩ := putVar_spec hid.vars svalue type val 1
        rw [hput] at hp
        cases hp
        exact { hid with vars := .inr hinv }

theorem cupNew_tables {host : Host} {s₀ s : CUPState} {addr : Nat}
    (h : cupNew host addr s₀ = .ok () s) : TablesOk s := by
  unfold cupNew at h
  rw [Run.set_bind] at h
  obtain ⟨t, s₁, ht, h⟩ := Run.bind_eq_ok.mp h
  obtain ⟨r, s₂, hadd, h⟩ := Run.bind_eq_ok.mp h
  cases h
  cases ht
  refine cupAddSymbol_tables ?_ hadd
  exact
    { vars := .inl rfl
      parents := by
        intro i p hp
        cases i with
        | zero =>
          cases hp
          exact Nat.le_refl _
        | succ i => cases hp
      root := rfl
      outer := by decide
      scope := by decide
      types := by
        intro ptr hptr hfunc
        obtain rfl := List.mem_singleton.mp hptr
        cases hfunc
      tempmem := fun slot h => by cases h
      gaps := rfl }

/-- The front end starts from sound tables every time. -/
theorem frontState_tables {host : Host} {s : CUPState} (h : FrontState host s) : TablesOk s := by
  induction h with
  | new h => exact cupNew_tables h
  | symbol _ hs ih => exact cupAddSymbol_tables ih hs
  | @parse s s' v text _ hs ih =>
    have hgoes := parseNodes_goes host text ih
    rw [GoesAt, Run.sat_of_ok hs] at hgoes
    exact hgoes.1.toTablesOk

/-- The lines `"a"`, `#""`, `y=[1,2]` and `{while y[0]<3{y=f(1,y)}}`. The name of the import is the
    end of the pool, where `getData` gives NULL. -/
def importText : Bytes :=
  ascii ['"', 'a', '"', '\n', '#', '"', '"', '\n', 'y', '=', '[', '1', ',', '2', ']', '\n',
    '\x7b', 'w', 'h', 'i', 'l', 'e', ' ', 'y', '[', '0', ']', '<', '3', '\x7b', 'y', '=', 'f', '(',
    '1', ',', 'y', ')', '\x7d', '\x7d']

instance {α : Type} : (r : Lib.Res CUPState α) → Decidable (Ends r)
  | .ok _ _ => .isTrue trivial
  | .stop (.exit _) _ => .isTrue trivial
  | .stop (.assertion _) _ => .isTrue trivial
  | .stop (.fault _) _ => .isFalse id
  | .stop .fuel _ => .isFalse id

end Cup
