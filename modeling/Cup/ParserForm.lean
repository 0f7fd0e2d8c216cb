/-
  What the parser returns is nothing or one well-formed tree, exactly when it took none of
  three branches: an operand without nodes, an array literal of one element, a list extended
  by an empty list.

  `Logs x Q`: a run of `x` appends events to the trace, and `Q` holds of them and the result.
  `Forest k es cells`: the cells are `k` trees, but for the defects that `es` records. Each
  missing operand costs one unit of weight, which nothing pays back, and a bare array literal
  stays visible in every stream around it; so the recorded defects decide whether the result is
  well formed (`parser_wellFormed_iff`).
-/
import Cup.Parser
import Cup.Stream

namespace Cup

open Lib (Stop Run Term)

/-! ## Runs and their events -/

/-- A token as `getToken` leaves it: no payload is left over from an earlier token. -/
def Node2.Read (n : Node2) : Prop :=
  n.token ≠ .tIdentifier → n.token ≠ .tNumber → n.token ≠ .tString → n.payload = .value 0

/-- Every run of `x` appends events; when it returns, `Q` holds of them and the result. It ends
    in the assertion of a vector exactly when a list was extended by an empty list. -/
def Logs {α : Type} (x : Comp α) (Q : List Event → α → Prop) : Prop :=
  ∀ s, s.nodes.Read → x.Sat s
    (fun a s' => s'.nodes.Read ∧ ∃ es, s'.trace = s.trace ++ es ∧ .emptyTail ∉ es ∧ Q es a)
    (fun e s' => ∃ es, s'.trace = s.trace ++ es ∧ (e = vecAssert ↔ .emptyTail ∈ es))

/-- `x` leaves the trace and the current token alone. -/
abbrev Quiet {α : Type} (x : Comp α) : Prop :=
  x.Keeps (fun s => (s.trace, s.nodes)) (· ≠ vecAssert)

section Logs

variable {α β : Type}

theorem logs_pure {Q : List Event → α → Prop} {a : α} (h : Q [] a) : Logs (pure a) Q :=
  fun s hs => ⟨hs, [], by simp, by simp, h⟩

theorem logs_stop {Q : List Event → α → Prop} {e : Stop} (h : e ≠ vecAssert) :
    Logs (Run.stop e) Q :=
  fun s _ => ⟨[], by simp, by simp [h]⟩

theorem logs_mono {x : Comp α} {Q Q' : List Event → α → Prop} (h : Logs x Q)
    (hq : ∀ es a, Q es a → Q' es a) : Logs x Q' := by
  intro s hs
  refine Run.sat_mono (h s hs) ?_ fun _ _ h => h
  rintro a s' ⟨hr, es, he, hne, hqa⟩
  exact ⟨hr, es, he, hne, hq es a hqa⟩

theorem logs_bind {x : Comp α} {f : α → Comp β} {Q : List Event → α → Prop}
    {R : List Event → β → Prop} (hx : Logs x Q)
    (hf : ∀ es a, Q es a → Logs (f a) fun es' b => R (es ++ es') b) : Logs (x >>= f) R := by
  intro s hs
  rw [Run.sat_bind]
  refine Run.sat_mono (hx s hs) ?_ fun _ _ h => h
  rintro a s' ⟨hr, es, he, hne, hq⟩
  refine Run.sat_mono (hf es a hq s' hr) ?_ ?_
  · rintro b s'' ⟨hr', es', he', hne', hb⟩
    refine ⟨hr', es ++ es', by rw [he', he, List.append_assoc], ?_, hb⟩
    simp [hne, hne']
  · rintro e s'' ⟨es', he', hiff⟩
    refine ⟨es ++ es', by rw [he', he, List.append_assoc], ?_⟩
    simp [hiff, hne]

theorem logs_quiet {x : Comp α} (hx : Quiet x) : Logs x fun es _ => es = [] := by
  intro s hs
  refine Run.sat_mono (hx s) ?_ ?_
  · rintro a s' h
    obtain ⟨ht, hn⟩ := Prod.mk.inj h
    exact ⟨by rw [hn]; exact hs, [], by simp [ht], by simp, rfl⟩
  · rintro e s' ⟨h, hne⟩
    exact ⟨[], by simp [(Prod.mk.inj h).1], by simp [hne]⟩

theorem logs_quiet_bind {x : Comp α} {f : α → Comp β} {R : List Event → β → Prop} (hx : Quiet x)
    (hf : ∀ a, Logs (f a) R) : Logs (x >>= f) R :=
  logs_bind (logs_quiet hx) fun es a h => by subst h; exact hf a

theorem logs_get_bind {f : CUPState → Comp β} {R : List Event → β → Prop}
    (hf : ∀ s, s.nodes.Read → Logs (f s) R) : Logs (Run.get >>= f) R :=
  fun s hs => hf s hs s hs

theorem logs_note_bind {e : Event} {f : Unit → Comp β} {R : List Event → β → Prop}
    (he : e ≠ .emptyTail) (hf : Logs (f ()) fun es b => R ([e] ++ es) b) :
    Logs (note e >>= f) R := by
  refine logs_bind (Q := fun es _ => es = [e]) ?_ fun es a h => by subst h; exact hf
  exact fun s hs => ⟨hs, [e], rfl, by simpa using he.symm, rfl⟩

/-- The current token is replaced by one without payload. -/
theorem logs_setNodes_bind {n : Node2} {f : Unit → Comp β} {R : List Event → β → Prop}
    (hn : n.Read) (hf : Logs (f ()) R) :
    Logs ((Run.modify fun s => { s with nodes := n }) >>= f) R := by
  refine logs_bind (Q := fun es _ => es = []) ?_ fun es a h => by subst h; exact hf
  exact fun s _ => ⟨hn, [], by simp, by simp, rfl⟩

/-! ## The lexer and the symbols -/

theorem idToken_nodes (s : CUPState) (str : Bytes) (h : s.nodes.payload = .value 0) :
    (idToken s str).1.nodes.Read ∧ (idToken s str).1.trace = s.trace := by
  unfold idToken
  split
  · exact ⟨fun _ _ _ => h, rfl⟩
  · exact ⟨fun hid => absurd rfl hid, rfl⟩

theorem scanToken_nodes (s : CUPState) (p : Bytes) (h : s.nodes.payload = .value 0) :
    (scanToken s p).nodes.Read ∧ (scanToken s p).trace = s.trace := by
  have htok : ∀ t rest, ({ s with input := rest, nodes := s.nodes.setToken t } : CUPState).nodes.Read :=
    fun t rest _ _ _ => h
  unfold scanToken
  cases p with
  | nil => exact ⟨htok _ _, rfl⟩
  | cons c rest =>
    dsimp only
    split
    · exact ⟨htok _ _, rfl⟩
    · split
      · exact ⟨fun _ _ hs => absurd rfl hs, rfl⟩
      · split
        · exact ⟨fun _ hn _ => absurd rfl hn, rfl⟩
        · split
          · exact ⟨fun _ hn _ => absurd rfl hn, rfl⟩
          · split
            · split
              · exact ⟨htok _ _, rfl⟩
              · exact ⟨htok _ _, rfl⟩
            · split
              · exact ⟨htok _ _, rfl⟩
              · split
                · split
                  · exact ⟨htok _ _, rfl⟩
                  · exact ⟨htok _ _, rfl⟩
                · split
                  · exact ⟨htok _ _, rfl⟩
                  · exact idToken_nodes _ _ h

theorem catchUp_ne_vecAssert {n : Nat} {priv input : Bytes} {loc : Loc} {e : Stop}
    (h : catchUp n priv input loc = .error e) : e ≠ vecAssert := by
  induction n generalizing priv loc with
  | zero => cases h; decide
  | succ n ih =>
    unfold catchUp at h
    split at h
    · cases h
    · split at h
      · cases h; decide
      · exact ih h

/-- What `getToken` leaves is a token it read. -/
theorem getToken_read (space : Bool) (s : CUPState) :
    (getToken space).Sat s (fun _ s' => s'.nodes.Read ∧ s'.trace = s.trace)
      (fun e s' => s' = s ∧ e ≠ vecAssert) := by
  unfold Run.Sat getToken
  dsimp only
  cases hc : catchUp ((s.priv.getD s.input).length + 1) (s.priv.getD s.input) s.input s.nodes.loc with
  | error e => exact ⟨rfl, catchUp_ne_vecAssert hc⟩
  | ok loc => exact scanToken_nodes _ _ rfl

theorem logs_getToken_bind {space : Bool} {f : Unit → Comp β} {R : List Event → β → Prop}
    (hf : Logs (f ()) R) : Logs (getToken space >>= f) R := by
  refine logs_bind (Q := fun es _ => es = []) ?_ fun es a h => by subst h; exact hf
  intro s _
  refine Run.sat_mono (getToken_read space s) ?_ ?_
  · rintro a s' ⟨hr, ht⟩
    exact ⟨hr, [], by simp [ht], by simp, rfl⟩
  · rintro e s' ⟨rfl, hne⟩
    exact ⟨[], by simp, by simp [hne]⟩

end Logs

/-! ## Quiet code -/

/-- `x` does not end in the assertion of a vector. -/
def Safe {α : Type} (x : Except Stop α) : Prop := ∀ e, x = .error e → e ≠ vecAssert

section Safe

variable {α β : Type}

theorem safe_ok (a : α) : Safe (.ok a) := fun _ h => by cases h

theorem safe_error {e : Stop} (h : e ≠ vecAssert) : Safe (.error e : Except Stop α) :=
  fun _ h' => by cases h'; exact h

theorem safe_bind {x : Except Stop α} {f : α → Except Stop β} (hx : Safe x)
    (hf : ∀ a, Safe (f a)) : Safe (x >>= f) := by
  intro e h
  cases x with
  | error e' => cases h; exact hx _ rfl
  | ok a => exact hf a e h

theorem safe_foldlM {f : β → α → Except Stop β} (hf : ∀ b a, Safe (f b a)) (l : List α) (b : β) :
    Safe (l.foldlM f b) := by
  induction l generalizing b with
  | nil => exact safe_ok _
  | cons a l ih =>
    rw [List.foldlM_cons]
    exact safe_bind (hf b a) fun b' => ih b'

theorem safe_at (v : CVec α) (i : Nat) : Safe (v.at i) := by
  unfold CVec.at
  split
  · exact safe_ok _
  · exact safe_error (by decide)
  · exact safe_error (by decide)

theorem safe_vectorPush {w : Nat} {v : CVec α} {block : List α} (h : block ≠ []) :
    Safe (vectorPush w v block) := by
  unfold vectorPush
  rw [if_neg h]
  refine safe_bind ?_ fun v' => ?_
  · unfold vectorResize
    split
    · exact safe_ok _
    · split
      · exact safe_ok _
      · split
        · exact safe_error (by decide)
        · exact safe_ok _
  · split
    · exact safe_ok _
    · exact safe_error (by decide)

theorem safe_freeSlot (map : List Nat) (mask n i : Nat) : Safe (freeSlot map mask n i) := by
  induction n generalizing i with
  | zero => exact safe_error (by decide)
  | succ n ih =>
    unfold freeSlot
    split
    · exact safe_error (by decide)
    · exact safe_ok _
    · exact ih _

theorem safe_varInsert (vars : CVec CVariable) (map : List Nat) (id : Nat) :
    Safe (varInsert vars map id) := by
  unfold varInsert
  exact safe_bind (safe_at _ _) fun v => safe_bind (safe_freeSlot _ _ _ _) fun i => safe_ok _

theorem safe_putVarCore (vars : CVec CVariable) (map : List Nat) (v : CVariable) :
    Safe (putVarCore vars map v) := by
  unfold putVarCore
  refine safe_bind (safe_vectorPush (by simp)) fun vars' => ?_
  dsimp only
  split
  · exact safe_bind (safe_foldlM (safe_varInsert _) _ _) fun map' => safe_ok _
  · exact safe_bind (safe_varInsert _ _ _) fun map' => safe_ok _

theorem safe_varFindLoop (vars : CVec CVariable) (map : List Nat) (mask : Nat) (name : Bytes)
    (scope n i : Nat) : Safe (varFindLoop vars map mask name scope n i) := by
  induction n generalizing i with
  | zero => exact safe_ok _
  | succ n ih =>
    unfold varFindLoop
    split
    · exact safe_error (by decide)
    · exact safe_ok _
    · refine safe_bind (safe_at _ _) fun v => ?_
      split
      · exact safe_ok _
      · exact ih _

theorem safe_varFind (s : CUPState) (name : Bytes) (scope : Nat) : Safe (varFind s name scope) := by
  unfold varFind
  split
  · exact safe_ok _
  · exact safe_varFindLoop _ _ _ _ _ _ _

theorem safe_varLookup (s : CUPState) (name : Bytes) (scope : Nat) :
    Safe (varLookup s name scope) := by
  have hloop : ∀ n scope, Safe (varLookupLoop s name n scope) := by
    intro n
    induction n with
    | zero => exact fun _ => safe_error (by decide)
    | succ n ih =>
      intro scope
      unfold varLookupLoop
      refine safe_bind (safe_varFind _ _ _) fun r => ?_
      split
      · exact safe_ok _
      · split
        · exact safe_ok _
        · split
          · exact safe_error (by decide)
          · exact ih _
  exact hloop _ _

end Safe

section Quiet

theorem quiet_lift {α : Type} {x : Except Stop α} (h : Safe x) : Quiet (Run.lift x) :=
  Run.keeps_lift h

theorem quiet_modify {g : CUPState → CUPState} (ht : ∀ s, (g s).trace = s.trace)
    (hn : ∀ s, (g s).nodes = s.nodes) : Quiet (Run.modify g) :=
  Run.keeps_modify fun s => Prod.ext (ht s) (hn s)

theorem quiet_of_typesOnly {α : Type} {x : Comp α} (h : TypesOnly x) : Quiet x :=
  h.map fun s => (s.trace, s.nodes)

theorem quiet_putVar (name : CStr) (type : Option TRef) (value scope : Nat) :
    Quiet (putVar name type value scope) := by
  intro s
  unfold putVar
  rw [Run.sat_bind, Run.sat_get, Run.sat_bind]
  refine Run.sat_mono (quiet_lift (safe_putVarCore _ _ _) s) (fun r s' h => ?_) fun _ _ h => h
  rw [Run.sat_set]

theorem quiet_scopeEnter : Quiet scopeEnter := by
  intro s
  unfold scopeEnter
  rw [Run.sat_bind, Run.sat_modify]
  split <;> rfl

theorem quiet_scopeLeave : Quiet scopeLeave := by
  intro s
  unfold scopeLeave
  rw [Run.sat_bind, Run.sat_get]
  split
  · exact ⟨rfl, by decide⟩
  · split
    · exact ⟨rfl, by decide⟩
    · rfl

theorem quiet_externalModule (host : Host) : Quiet (externalModule host) := by
  intro s
  unfold externalModule
  rw [Run.sat_bind, Run.sat_get]
  dsimp only
  split
  · exact ⟨rfl, by decide⟩
  · split
    · exact ⟨rfl, by decide⟩
    · split
      · exact ⟨rfl, by decide⟩
      · rfl

theorem quiet_gap {α : Type} (g : Gap) (text : String) :
    Quiet (do noteGap g; Run.stop (.fault text) : Comp α) :=
  Run.keeps_bind (Run.keeps_modify fun _ => rfl) fun _ => Run.keeps_stop (by simp [vecAssert])

theorem quiet_importModule (host : Host) : Quiet (importModule host) := by
  refine Run.keeps_bind Run.keeps_get fun s => ?_
  dsimp only
  split
  · exact Run.keeps_stop (by decide)
  · exact Run.keeps_pure _

theorem quiet_externalSymbol (host : Host) (name : CStr) (sig : Nat) :
    Quiet (externalSymbol host name sig) := by
  refine Run.keeps_bind Run.keeps_get fun s => ?_
  split
  · exact Run.keeps_stop (by decide)
  · split
    · exact quiet_gap _ _
    · refine Run.keeps_bind (quiet_of_typesOnly (cupTypeParse_keeps _)) fun type => ?_
      refine Run.keeps_bind Run.keeps_get fun s => ?_
      refine Run.keeps_bind (quiet_lift (safe_varLookup _ _ _)) fun r => ?_
      split
      · exact Run.keeps_stop (by decide)
      · exact quiet_putVar _ _ _ _

theorem quiet_setVarType (name : CStr) (type : TRef) : Quiet (setVarType name type) := by
  intro s
  unfold setVarType
  rw [Run.sat_bind, Run.sat_get, Run.sat_bind]
  refine Run.sat_mono (quiet_lift (safe_varLookup _ _ _) s) (fun r s' h => ?_) fun _ _ h => h
  split
  · exact ⟨h, by decide⟩
  · rw [Run.sat_bind]
    refine Run.sat_mono (quiet_lift (safe_at _ _) s') (fun v s'' h' => ?_) fun _ _ h' =>
      ⟨h'.1.trans h, h'.2⟩
    rw [Run.sat_set]

theorem quiet_functionSlots (argc : Nat) : Quiet (functionSlots argc) := by
  unfold functionSlots
  split
  · exact Run.keeps_stop (by decide)
  · exact Run.keeps_bind (quiet_modify (fun _ => rfl) fun _ => rfl) fun _ => Run.keeps_gets _

theorem quiet_functionType (host : Host) (argc : Nat) : Quiet (functionType host argc) :=
  Run.keeps_bind (quiet_functionSlots argc) fun _ => quiet_of_typesOnly (cupType_keeps _ _ _)

end Quiet

/-! ## Forests -/

/-- No operand is missing, and no array literal is bare. -/
def Clean (es : List Event) : Prop := .missing ∉ es ∧ .bare ∉ es

/-- The storage that was reserved. -/
def reserved (es : List Event) : List (Nat × Nat) :=
  es.filterMap fun
    | .reserve off len => some (off, len)
    | _ => none

/-- The cells are `k` trees, up to the defects that `es` records. -/
structure Forest (k : Nat) (es : List Event) (cells : List Cell) : Prop where
  ok : ∀ c ∈ cells, c.Ok
  known : ∀ c ∈ cells, inStream c.token
  weight : Term.weight arity cells + es.count .missing = k
  bare : .bare ∈ es → Bare cells
  trees : Clean es → ∃ ts : List (Term Cell), ts.length = k ∧
    (∀ t ∈ ts, t.All (NodeOk (reserved es))) ∧ cells = Term.flattenAll ts

section Forest

variable {k l : Nat} {es es' : List Event} {cells cells' : List Cell} {c : Cell}

theorem clean_append : Clean (es ++ es') ↔ Clean es ∧ Clean es' := by
  simp only [Clean, List.mem_append, not_or]
  tauto

theorem clean_nil : Clean [] := by simp [Clean]

theorem reserved_subset (h : es ⊆ es') : reserved es ⊆ reserved es' := by
  intro r hr
  obtain ⟨e, he, her⟩ := List.mem_filterMap.mp hr
  exact List.mem_filterMap.mpr ⟨e, h he, her⟩

theorem all_reserved_mono (h : es ⊆ es') {t : Term Cell} (ht : t.All (NodeOk (reserved es))) :
    t.All (NodeOk (reserved es')) :=
  ht.mono fun _ _ hok => hok.mono (reserved_subset h)

theorem Forest.nil (h : Clean es) : Forest 0 es [] where
  ok := by simp
  known := by simp
  weight := by simp [List.count_eq_zero_of_not_mem h.1]
  bare hb := absurd hb h.2
  trees _ := ⟨[], rfl, by simp, by simp⟩

/-- A missing operand. -/
theorem Forest.missing : Forest 1 [.missing] [] where
  ok := by simp
  known := by simp
  weight := by simp
  bare hb := by simp at hb
  trees h := absurd h.1 (by simp)

theorem Forest.append (h : Forest k es cells) (h' : Forest l es' cells') :
    Forest (k + l) (es ++ es') (cells ++ cells') where
  ok c hc := (List.mem_append.mp hc).elim (h.ok c) (h'.ok c)
  known c hc := (List.mem_append.mp hc).elim (h.known c) (h'.known c)
  weight := by
    have h₁ := h.weight
    have h₂ := h'.weight
    rw [Term.weight_append, List.count_append]
    omega
  bare hb := (List.mem_append.mp hb).elim (fun hb => (h.bare hb).append_right _)
    fun hb => (h'.bare hb).append_left _
  trees hc := by
    obtain ⟨ts, hl, hall, rfl⟩ := h.trees (clean_append.mp hc).1
    obtain ⟨ts', hl', hall', rfl⟩ := h'.trees (clean_append.mp hc).2
    refine ⟨ts ++ ts', by simp [hl, hl'], fun t ht => ?_, (Term.flattenAll_append _ _).symm⟩
    rcases List.mem_append.mp ht with ht | ht
    · exact all_reserved_mono (List.subset_append_left _ _) (hall t ht)
    · exact all_reserved_mono (List.subset_append_right _ _) (hall' t ht)

theorem Forest.perm (h : Forest k es cells) (hp : es.Perm es') : Forest k es' cells where
  ok := h.ok
  known := h.known
  weight := by rw [← hp.count_eq]; exact h.weight
  bare hb := h.bare (hp.mem_iff.mpr hb)
  trees hc := by
    obtain ⟨ts, hl, hall, he⟩ := h.trees ⟨fun hm => hc.1 (hp.mem_iff.mp hm),
      fun hm => hc.2 (hp.mem_iff.mp hm)⟩
    exact ⟨ts, hl, fun t ht => all_reserved_mono hp.subset (hall t ht), he⟩

/-- The tree of a clean forest of one. -/
theorem Forest.one (h : Forest 1 es cells) (hc : Clean es) :
    ∃ t : Term Cell, t.All (NodeOk (reserved es)) ∧ cells = t.flatten := by
  obtain ⟨ts, hl, hall, rfl⟩ := h.trees hc
  obtain ⟨t, rfl⟩ := List.length_eq_one_iff.mp hl
  exact ⟨t, hall t List.mem_cons_self, by simp⟩

/-- A cell in front of its operands. -/
theorem Forest.node (h : Forest k es cells) (hc : c.Ok) (hs : inStream c.token) (hk : arity c = k)
    (hn : Clean es → ∃ ts : List (Term Cell), (∀ t ∈ ts, t.All (NodeOk (reserved es))) ∧
      cells = Term.flattenAll ts ∧ NodeOk (reserved es) c ts) : Forest 1 es (c :: cells) where
  ok d hd := by
    rcases List.mem_cons.mp hd with rfl | hd
    · exact hc
    · exact h.ok d hd
  known d hd := by
    rcases List.mem_cons.mp hd with rfl | hd
    · exact hs
    · exact h.known d hd
  weight := by
    have := h.weight
    rw [Term.weight_cons, hk]
    omega
  bare hb := (h.bare hb).append_left [c]
  trees hclean := by
    obtain ⟨ts, hall, rfl, hok⟩ := hn hclean
    exact ⟨[.node c ts], rfl, by simpa using Term.All.node hok hall, by simp⟩

/-- The labels whose operands are any trees. -/
def plain : CTType → Bool
  | .tCall | .nArray | .tAt => false
  | t => inStream t

theorem inStream_of_plain {t : CTType} (h : plain t) : inStream t := by
  unfold plain at h
  split at h
  · cases h
  · cases h
  · cases h
  · exact h

theorem NodeOk.of_plain {reserved : List (Nat × Nat)} {ts : List (Term Cell)} (hc : c.Ok)
    (hp : plain c.token) (hl : ts.length = arity c) : NodeOk reserved c ts where
  ok := hc
  known := inStream_of_plain hp
  operands := hl
  call h := by rw [h] at hp; cases hp
  array h := by rw [h] at hp; cases hp
  function h := by rw [h] at hp; cases hp

theorem Forest.plain (h : Forest k es cells) (hc : c.Ok) (hp : plain c.token)
    (hk : arity c = k) : Forest 1 es (c :: cells) :=
  h.node hc (inStream_of_plain hp) hk fun hclean => by
    obtain ⟨ts, hl, hall, he⟩ := h.trees hclean
    exact ⟨ts, hall, he, .of_plain hc hp (hl.trans hk.symm)⟩

end Forest

/-! ## Node vectors -/

/-- A vector that is not released holds the cells, and is NULL when there are none. -/
structure Holds (v : Nodes) (cells : List Cell) : Prop where
  items : v.items = encode cells
  usable : v.buf ≠ .freed
  null : v.buf = .null ↔ cells = []

/-- Nothing, or a tree up to the defects that are recorded. -/
def Operand (es : List Event) (cells : List Cell) : Prop :=
  (cells = [] ∧ Clean es) ∨ (cells ≠ [] ∧ Forest 1 es cells)

/-- What the parser returns. -/
def Post (es : List Event) (v : Nodes) : Prop := ∃ cells, Holds v cells ∧ Operand es cells

theorem holds_null : Holds {} [] := ⟨rfl, by decide, by simp⟩

theorem post_null : Post [] {} := ⟨[], holds_null, .inl ⟨rfl, clean_nil⟩⟩

theorem Forest.post {es : List Event} {v : Nodes} {c : Cell} {cells : List Cell}
    (h : Forest 1 es (c :: cells)) (hv : Holds v (c :: cells)) : Post es v :=
  ⟨_, hv, .inr ⟨by simp, h⟩⟩

theorem vectorResize_items {α : Type} {v v' : CVec α} {needed : Nat}
    (h : vectorResize v needed = .ok v') : v'.items = v.items := by
  unfold vectorResize at h
  split at h
  · cases h; rfl
  · split at h
    · cases h; rfl
    · split at h
      · cases h
      · cases h; rfl

theorem vectorPush_ok {α : Type} {w : Nat} {v v' : CVec α} {block : List α}
    (h : vectorPush w v block = .ok v') : v'.buf = .live ∧ v'.items = v.items ++ block := by
  unfold vectorPush at h
  split at h
  · cases h
  · cases hr : vectorResize v ((v.items.length + block.length) * w) with
    | error e => rw [hr] at h; cases h
    | ok u =>
      rw [hr] at h
      change (if u.buf = .live then _ else _) = _ at h
      split at h
      · cases h
        exact ⟨‹_›, by rw [vectorResize_items hr]⟩
      · cases h

/-- A push in front is a push behind with the items in another order. -/
theorem vectorFpush_eq_map {α : Type} (w : Nat) (v : CVec α) (block : List α) :
    vectorFpush w v block =
      (vectorPush w v block).map fun v' => { v' with items := block ++ v.items } := by
  unfold vectorFpush vectorPush
  split
  · rfl
  · cases hr : vectorResize v ((v.items.length + block.length) * w) with
    | error e => rfl
    | ok u =>
      change (if u.buf = .live then _ else _) = Except.map _ (if u.buf = .live then _ else _)
      split
      · simp [Except.map, vectorResize_items hr]
      · rfl

theorem vectorFpush_ok {α : Type} {w : Nat} {v v' : CVec α} {block : List α}
    (h : vectorFpush w v block = .ok v') : v'.buf = .live ∧ v'.items = block ++ v.items := by
  rw [vectorFpush_eq_map] at h
  cases hp : vectorPush w v block with
  | error e => rw [hp] at h; cases h
  | ok u =>
    rw [hp] at h
    cases h
    exact ⟨(vectorPush_ok hp).1, rfl⟩

theorem safe_vectorFpush {α : Type} {w : Nat} {v : CVec α} {block : List α} (h : block ≠ []) :
    Safe (vectorFpush w v block) := by
  rw [vectorFpush_eq_map]
  cases hp : vectorPush w v block with
  | error e => exact fun e' he => by cases he; exact safe_vectorPush h _ hp
  | ok u => exact safe_ok _

section Vectors

variable {β : Type} {R : List Event → β → Prop} {v w : Nodes} {a b cells : List Cell} {c : Cell}

theorem logs_lift_bind {α : Type} {x : Except Stop α} {f : α → Comp β} (hx : Safe x)
    (hf : ∀ a, x = .ok a → Logs (f a) R) : Logs (Run.lift x >>= f) R := by
  cases x with
  | error e => exact logs_stop (hx e rfl)
  | ok a => exact hf a rfl

theorem holds_push {block : List Node} (hv : Holds v a) (h : vectorPush 8 v block = .ok w)
    (hb : block = encode b) (hne : b ≠ []) : Holds w (a ++ b) where
  items := by rw [(vectorPush_ok h).2, hv.items, hb, encode_append]
  usable := by rw [(vectorPush_ok h).1]; decide
  null := by rw [(vectorPush_ok h).1]; simp [hne]

theorem holds_fpush {block : List Node} (hv : Holds v a) (h : vectorFpush 8 v block = .ok w)
    (hb : block = encode b) (hne : b ≠ []) : Holds w (b ++ a) where
  items := by rw [(vectorFpush_ok h).2, hv.items, hb, encode_append]
  usable := by rw [(vectorFpush_ok h).1]; decide
  null := by rw [(vectorFpush_ok h).1]; simp [hne]

theorem logs_pushLoc_bind {loc : Loc} {f : Nodes → Comp β} (hv : Holds v a)
    (hf : ∀ v', Holds v' (a ++ [⟨loc, none⟩]) → Logs (f v') R) : Logs (pushLoc v loc >>= f) R :=
  logs_lift_bind (safe_vectorPush (by simp)) fun _ h =>
    hf _ (holds_push hv h (by simp [Cell.nodes]) (by simp))

theorem logs_pushNode2_bind {n : Node2} {f : Nodes → Comp β} (hv : Holds v a)
    (hf : ∀ v', Holds v' (a ++ [⟨n.loc, some n.payload⟩]) → Logs (f v') R) :
    Logs (pushNode2 v n >>= f) R :=
  logs_lift_bind (safe_vectorPush (by simp [Node2.nodes])) fun _ h =>
    hf _ (holds_push hv h (by simp [Cell.nodes, Node2.nodes]) (by simp))

theorem logs_fpushLoc_bind {loc : Loc} {f : Nodes → Comp β} (hv : Holds v a)
    (hf : ∀ v', Holds v' (⟨loc, none⟩ :: a) → Logs (f v') R) :
    Logs (fpushNode v (.tok loc) >>= f) R :=
  logs_lift_bind (safe_vectorFpush (by simp)) fun _ h =>
    hf _ (holds_fpush (b := [⟨loc, none⟩]) hv h (by simp [Cell.nodes]) (by simp))

/-- A payload is pushed in front, and then its token. -/
theorem logs_fpushCell_bind {loc : Loc} {x : Node} {f : Nodes → Comp β} (hv : Holds v a)
    (hf : ∀ v', Holds v' (⟨loc, some x⟩ :: a) → Logs (f v') R) :
    Logs (fpushNode v x >>= fun v => fpushNode v (.tok loc) >>= f) R := by
  refine logs_lift_bind (safe_vectorFpush (by simp)) fun v₁ h₁ => ?_
  refine logs_lift_bind (safe_vectorFpush (by simp)) fun v₂ h₂ => ?_
  obtain ⟨hl₂, hi₂⟩ := vectorFpush_ok h₂
  refine hf v₂ ⟨?_, by rw [hl₂]; decide, by simp [hl₂]⟩
  rw [hi₂, (vectorFpush_ok h₁).2, hv.items]
  simp [Cell.nodes]

theorem logs_pushVector {f : Nodes → Comp β} (hv : Holds v a) (hw : Holds w b)
    (hf : ∀ v', Holds v' (a ++ b) → Logs (f v') R) :
    Logs (Run.lift (pushVector 8 v w) >>= f) R := by
  unfold pushVector
  cases hb : w.buf with
  | freed => exact absurd hb hw.usable
  | null =>
    obtain rfl := hw.null.mp hb
    exact hf v (by simpa using hv)
  | live =>
    have hne : b ≠ [] := fun he => by rw [hw.null.mpr he] at hb; cases hb
    refine logs_lift_bind (safe_vectorPush ?_) fun v' h => ?_
    · rw [hw.items]
      exact fun he => hne (encode_eq_nil.mp he)
    · exact hf v' (holds_push hv h hw.items hne)

theorem logs_fpushVector {f : Nodes → Comp β} (hv : Holds v a) (hw : Holds w b) (hne : b ≠ [])
    (hf : ∀ v', Holds v' (b ++ a) → Logs (f v') R) :
    Logs (Run.lift (fpushVector 8 v w) >>= f) R := by
  unfold fpushVector
  cases hb : w.buf with
  | freed => exact absurd hb hw.usable
  | null => exact absurd (hw.null.mp hb) hne
  | live =>
    refine logs_lift_bind (safe_vectorFpush ?_) fun v' h => ?_
    · rw [hw.items]
      exact fun he => hne (encode_eq_nil.mp he)
    · exact hf v' (holds_fpush hv h hw.items hne)

theorem Holds.live (hv : Holds v (c :: cells)) : v.buf = .live := by
  cases hb : v.buf with
  | live => rfl
  | freed => exact absurd hb hv.usable
  | null => exact absurd (hv.null.mp hb) (by simp)

theorem Holds.at_zero (hv : Holds v (c :: cells)) : v.at 0 = .ok (.tok c.loc) := by
  have hi : v.items[0]? = some (.tok c.loc) := by rw [hv.items]; simp [Cell.nodes]
  rw [CVec.at, hv.live, hi]

theorem Holds.at_one {x : Node} (hv : Holds v (c :: cells)) (hc : c.payload = some x) :
    v.at 1 = .ok x := by
  have hi : v.items[1]? = some x := by rw [hv.items]; simp [Cell.nodes, hc]
  rw [CVec.at, hv.live, hi]

theorem Holds.headToken (hv : Holds v (c :: cells)) : headToken v = pure c.token := by
  funext s
  rw [Cup.headToken, hv.at_zero]
  rfl

theorem Holds.payloadValue {n : Nat} (hv : Holds v (c :: cells))
    (hc : c.payload = some (.value n)) : payloadValue v = pure n := by
  funext s
  rw [Cup.payloadValue, hv.at_one hc]
  rfl

theorem Holds.setPayload {x : Node} (hv : Holds v (c :: cells)) (hc : c.payload = some x)
    (n : Nat) : Holds (setPayload v n) ({ c with payload := some (.value n) } :: cells) where
  items := by
    change v.items.set 1 _ = _
    rw [hv.items]
    simp [Cell.nodes, hc]
  usable := hv.usable
  null := by
    change v.buf = .null ↔ _
    simp [hv.live]

theorem Holds.operandToken (hv : Holds v (c :: cells)) : operandToken v = pure c.token := by
  have hlive : v.buf ≠ .null := by simp [hv.live]
  rw [Cup.operandToken, if_neg hlive]
  exact hv.headToken

/-- A vector without nodes has no first token. -/
theorem Holds.operandToken_nil (hv : Holds v []) (s : CUPState) :
    Cup.operandToken v s = .stop (.fault "NULL dereference") { s with gaps := s.gaps ++ [.operand] } := by
  rw [Cup.operandToken, if_pos (hv.null.mpr rfl), Cup.headToken, CVec.at, hv.null.mpr rfl]
  rfl

end Vectors

/-! ## Operands -/

section Operands

variable {β : Type} {R : List Event → β → Prop} {v w : Nodes} {a b cells : List Cell}
  {c : Cell} {es : List Event} {host : Host} {rec : Nat → Comp Nodes}

/-- An operand without nodes whose token is read. -/
theorem logs_operandToken_nil {f : CTType → Comp β} (hw : Holds w []) :
    Logs (operandToken w >>= f) R := by
  intro s _
  rw [Run.sat_of_stop (Run.bind_of_stop (hw.operandToken_nil s))]
  exact ⟨[], by simp, by simp [vecAssert]⟩

/-- An operand where a tree is read: what is missing is recorded. -/
theorem logs_noteMissing_bind {f : Unit → Comp β} (hb : Holds w b) (ho : Operand es b)
    (hf : ∀ es', Forest 1 (es ++ es') b → Logs (f ()) fun es'' r => R (es' ++ es'') r) :
    Logs (noteMissing w >>= f) R := by
  obtain ⟨rfl, hc⟩ | ⟨hne, hforest⟩ := ho
  · unfold noteMissing
    rw [if_pos (hb.null.mpr rfl)]
    refine logs_note_bind (by decide) (hf _ ?_)
    simpa using (Forest.nil hc).append Forest.missing
  · unfold noteMissing
    rw [if_neg fun hn => hne (hb.null.mp hn)]
    exact hf [] (by simpa using hforest)

theorem logs_splice_bind {f : Nodes → Comp β} (hv : Holds v a) (hb : Holds w b)
    (ho : Operand es b) (hf : ∀ es' v', Holds v' (a ++ b) → Forest 1 (es ++ es') b →
      Logs (f v') fun es'' r => R (es' ++ es'') r) : Logs (splice v w >>= f) R := by
  rw [splice, Run.bind_assoc]
  refine logs_noteMissing_bind hb ho fun es' hforest => ?_
  exact logs_pushVector hv hb fun v' hv' => hf es' v' hv' hforest

/-- An operand is read and spliced. -/
theorem logs_read_bind {x : Comp Nodes} {f : Nodes → Comp β} (hx : Logs x Post) (hv : Holds v a)
    (hf : ∀ es b v', Holds v' (a ++ b) → Forest 1 es b → Logs (f v') fun es' r => R (es ++ es') r) :
    Logs (x >>= fun w => splice v w >>= f) R := by
  refine logs_bind hx ?_
  rintro es w ⟨b, hb, ho⟩
  refine logs_splice_bind hv hb ho fun es' v' hv' hforest => ?_
  exact logs_mono (hf (es ++ es') b v' hv' hforest) fun es'' r h => by simpa using h

/-- The last operand of a node. -/
theorem logs_read {x : Comp Nodes} {Q : List Event → Nodes → Prop} (hx : Logs x Post)
    (hv : Holds v a) (hq : ∀ es b v', Holds v' (a ++ b) → Forest 1 es b → Q es v') :
    Logs (x >>= splice v) Q := by
  rw [← Run.bind_pure (x >>= splice v), Run.bind_assoc]
  exact logs_read_bind hx hv fun es b v' hv' hforest =>
    logs_pure (by simpa using hq es b v' hv' hforest)

theorem logs_statementWith (hrec : ∀ m, Logs (rec m) Post) : Logs (statementWith rec) Post := by
  refine logs_bind (hrec _) fun es v hv => ?_
  refine logs_get_bind fun s _ => ?_
  split
  · exact logs_getToken_bind (logs_pure (by simpa using hv))
  · exact logs_pure (by simpa using hv)

theorem ok_of_narrow {loc : Loc} (h : wide loc.token = false) : (⟨loc, none⟩ : Cell).Ok := by
  refine ⟨by simpa [Cell.token] using h.symm, fun ht => ?_⟩
  rcases ht with ht | ht <;> rw [Cell.token] at ht <;> rw [ht] at h <;> cases h

theorem ok_of_wide {loc : Loc} {x : Node} (h : wide loc.token = true) (hb : loc.token ≠ .nBlock)
    (hc : loc.token ≠ .tComma) : (⟨loc, some x⟩ : Cell).Ok :=
  ⟨by simpa [Cell.token] using h.symm, fun ht => (ht.elim hb hc).elim⟩

/-- A token of one node in front of its operands. -/
theorem Forest.narrow {k : Nat} {loc : Loc} {t : CTType} (h : Forest k es cells)
    (hloc : loc.token = t)
    (ht : wide t = false ∧ Cup.plain t = true ∧ arity ⟨⟨t, 0, 0⟩, none⟩ = k) :
    Forest 1 es (⟨loc, none⟩ :: cells) := by
  obtain ⟨t', col, line⟩ := loc
  obtain rfl : t' = t := hloc
  exact h.plain (ok_of_narrow ht.1) ht.2.1 ht.2.2

/-- A leaf with a payload. -/
theorem forest_leaf {loc : Loc} {t : CTType} {x : Node} (hloc : loc.token = t)
    (ht : wide t = true ∧ Cup.plain t = true ∧ t ≠ .nBlock ∧ t ≠ .tComma ∧
      arity ⟨⟨t, 0, 0⟩, none⟩ = 0) : Forest 1 [] [⟨loc, some x⟩] := by
  obtain ⟨t', col, line⟩ := loc
  obtain rfl : t' = t := hloc
  obtain ⟨hw, hp, hb, hc, hk⟩ := ht
  refine (Forest.nil clean_nil).plain (ok_of_wide hw hb hc) hp ?_
  cases t' <;> first | exact hk | exact absurd rfl hb | exact absurd rfl hc

theorem ok_of_count {loc : Loc} {n : Nat} (h : wide loc.token = true) :
    (⟨loc, some (.value n)⟩ : Cell).Ok :=
  ⟨by simpa [Cell.token] using h.symm, fun _ => ⟨n, rfl⟩⟩

/-- The empty list. -/
theorem forest_emptyList {loc : Loc} (h : loc.token = .tComma) :
    Forest 1 [] [⟨loc, some (.value 0)⟩] :=
  (Forest.nil clean_nil).plain (ok_of_count (by rw [h]; rfl)) (by rw [Cell.token, h]; rfl)
    (by simp [arity, Cell.token, h, Node.val])

theorem logs_declare (name : CStr) : Logs (declare name) fun es _ => Clean es ∧ reserved es = [] := by
  have hentry : ∀ r scope, Clean [.entry name scope r] ∧ reserved [.entry name scope r] = [] := by
    intro r scope
    simp [Clean, reserved]
  refine logs_get_bind fun s _ => ?_
  refine logs_lift_bind (safe_varLookup _ _ _) fun r _ => ?_
  have hnote : ∀ r scope, Logs (note (.entry name scope r)) fun es _ => Clean es ∧ reserved es = [] :=
    fun r scope s hs => ⟨hs, [_], rfl, by simp, hentry r scope⟩
  split
  · exact hnote _ _
  · exact logs_quiet_bind (quiet_putVar _ _ _ _) fun _ => hnote _ _

theorem logs_importCase : Logs (importCase host) Post := by
  unfold importCase
  refine logs_getToken_bind (logs_get_bind fun s _ => ?_)
  split
  · exact logs_pure post_null
  · exact logs_quiet_bind (quiet_importModule host) fun _ => logs_getToken_bind (logs_pure post_null)

theorem logs_externalLoop (n : Nat) : Logs (externalLoop host n) fun es _ => es = [] := by
  induction n with
  | zero => exact logs_stop (by decide)
  | succ n ih =>
    unfold externalLoop
    refine logs_get_bind fun s _ => ?_
    split
    · refine logs_getToken_bind (logs_get_bind fun s _ => ?_)
      split
      · exact logs_pure rfl
      · exact logs_quiet_bind (quiet_externalSymbol _ _ _) fun _ => logs_getToken_bind ih
    · exact logs_pure rfl

theorem logs_externalCase (n : Nat) : Logs (externalCase host n) Post := by
  unfold externalCase
  refine logs_getToken_bind (logs_get_bind fun s _ => ?_)
  split
  · exact logs_pure post_null
  · refine logs_quiet_bind (quiet_externalModule host) fun _ => logs_getToken_bind ?_
    refine logs_bind (logs_externalLoop n) fun es _ h => ?_
    subst h
    exact logs_pure post_null

theorem logs_whileCase (hrec : ∀ m, Logs (rec m) Post) {n : Node2} (hn : n.token = .tWhile) :
    Logs (whileCase rec n) Post := by
  unfold whileCase
  refine logs_pushLoc_bind holds_null fun v hv => logs_getToken_bind ?_
  refine logs_read_bind (logs_statementWith hrec) hv fun es b v hv hb => ?_
  refine logs_read (logs_statementWith hrec) hv fun es' b' v hv hb' => ?_
  exact ((hb.append hb').narrow hn (by decide)).post (by simpa using hv)

theorem logs_returnCase (hrec : ∀ m, Logs (rec m) Post) {n : Node2} (hn : n.token = .tReturn) :
    Logs (returnCase rec n) Post := by
  unfold returnCase
  refine logs_pushLoc_bind holds_null fun v hv => logs_getToken_bind ?_
  refine logs_read (logs_statementWith hrec) hv fun es b v hv hb => ?_
  exact (hb.narrow hn (by decide)).post (by simpa using hv)

theorem logs_unaryCase (hrec : ∀ m, Logs (rec m) Post) {n : Node2} (hr : n.Read)
    (hn : n.token = .nUnary ∨ n.token = .tNot) : Logs (unaryCase rec n) Post := by
  unfold unaryCase
  refine logs_setNodes_bind hr ?_
  refine logs_pushLoc_bind holds_null fun v hv => logs_getToken_bind ?_
  refine logs_read (hrec _) hv fun es b v hv hb => ?_
  refine Forest.post ?_ (by simpa using hv)
  rcases hn with hn | hn
  · exact hb.narrow hn (by decide)
  · exact hb.narrow hn (by decide)

theorem logs_identifierCase {n : Node2} (hn : n.token = .tIdentifier) :
    Logs (identifierCase n) Post := by
  unfold identifierCase
  refine logs_pushNode2_bind holds_null fun v hv => ?_
  have hpost : Post [] v := (forest_leaf hn (by decide)).post hv
  split
  · refine logs_get_bind fun s _ => ?_
    split
    · refine logs_bind (logs_declare _) fun es _ hes => logs_getToken_bind (logs_pure ?_)
      exact ((Forest.nil hes.1).append (forest_leaf hn (by decide))).post hv
    · exact logs_getToken_bind (logs_pure hpost)
  · exact logs_stop (by decide)

theorem logs_numberCase {n : Node2} (hn : n.token = .tNumber) : Logs (numberCase n) Post := by
  have hleaf : ∀ {n' : Node2} {t : CTType}, n'.token = t → (t = .tNumber ∨ t = .tDouble) →
      Logs (pushNode2 {} n') Post := by
    rintro n' t hn' ht
    rw [← Run.bind_pure (pushNode2 _ _)]
    refine logs_pushNode2_bind holds_null fun v hv => logs_pure (Forest.post ?_ hv)
    rcases ht with rfl | rfl
    · exact forest_leaf hn' (by decide)
    · exact forest_leaf hn' (by decide)
  unfold numberCase
  refine logs_getToken_bind (logs_get_bind fun s _ => ?_)
  split
  · refine logs_getToken_bind (logs_get_bind fun s _ => ?_)
    split
    · exact logs_getToken_bind (hleaf rfl (.inr rfl))
    · exact hleaf rfl (.inr rfl)
  · exact hleaf hn (.inl rfl)

theorem logs_leafCase {n : Node2}
    (hn : n.token = .tThis ∨ n.token = .tVarg ∨ n.token = .tBreak ∨ n.token = .tContinue) :
    Logs (leafCase n) Post := by
  unfold leafCase
  refine logs_pushLoc_bind holds_null fun v hv => logs_getToken_bind (logs_pure ?_)
  refine Forest.post ?_ hv
  rcases hn with hn | hn | hn | hn
  · exact (Forest.nil clean_nil).narrow hn (by decide)
  · exact (Forest.nil clean_nil).narrow hn (by decide)
  · exact (Forest.nil clean_nil).narrow hn (by decide)
  · exact (Forest.nil clean_nil).narrow hn (by decide)

theorem logs_stringCase {n : Node2} (hn : n.token = .tString) : Logs (stringCase n) Post := by
  unfold stringCase
  refine logs_pushNode2_bind holds_null fun v hv => logs_getToken_bind (logs_pure ?_)
  exact (forest_leaf hn (by decide)).post hv

theorem logs_expectAndNext_bind {t : CTType} {f : Unit → Comp β} (hf : Logs (f ()) R) :
    Logs (expectAndNext t >>= f) R := by
  unfold expectAndNext
  rw [Run.bind_assoc]
  refine logs_get_bind fun s _ => ?_
  split
  · exact logs_stop (by decide)
  · exact logs_getToken_bind hf

theorem logs_bracketCase (hrec : ∀ m, Logs (rec m) Post) : Logs (bracketCase rec) Post := by
  unfold bracketCase
  refine logs_getToken_bind (logs_get_bind fun s hs => ?_)
  dsimp only
  split
  · refine logs_bind (logs_statementWith hrec) fun es v hv => ?_
    exact logs_expectAndNext_bind (logs_pure (by simpa using hv))
  · rename_i ht
    rw [not_not] at ht
    refine logs_pushNode2_bind holds_null fun v hv => logs_getToken_bind (logs_pure ?_)
    have hp : s.nodes.payload = .value 0 := hs (by rw [ht]; decide) (by rw [ht]; decide)
      (by rw [ht]; decide)
    have hempty : Forest 1 [] [⟨(s.nodes.setToken .tComma).loc, some (.value 0)⟩] :=
      forest_emptyList rfl
    rw [← hp] at hempty
    exact hempty.post hv

/-- A statement behind those of a block: the payload in front counts the trees behind it. -/
theorem logs_pushStatement_bind {β : Type} {R : List Event → β → Prop} {f : Nodes → Comp β}
    {loc : Loc} {k : Nat} {es es' : List Event} (hv : Holds v (⟨loc, some (.value k)⟩ :: a))
    (ha : Forest k es a) (hw : Post es' w)
    (hf : ∀ k' b v', Holds v' (⟨loc, some (.value k')⟩ :: b) → Forest k' (es ++ es') b →
      Logs (f v') R) : Logs (pushStatement v w >>= f) R := by
  obtain ⟨b, hb, ⟨rfl, hc⟩ | ⟨hne, hforest⟩⟩ := hw
  · rw [pushStatement, if_neg (fun hn => hn (hb.null.mpr rfl))]
    refine logs_pushVector hv hb fun v' hv' => hf k a v' (by simpa using hv') ?_
    simpa using ha.append (Forest.nil hc)
  · rw [pushStatement, if_pos (fun hn => hne (hb.null.mp hn)), hv.payloadValue rfl, Run.bind_assoc]
    refine logs_pushVector (hv.setPayload rfl (k + 1)) hb fun v' hv' => ?_
    exact hf (k + 1) (a ++ b) v' (by simpa using hv') (ha.append hforest)

/-- The statements of a block. -/
theorem logs_blockLoop (hrec : ∀ m, Logs (rec m) Post) {loc : Loc} (n : Nat) {k : Nat}
    {es : List Event} (hv : Holds v (⟨loc, some (.value k)⟩ :: a)) (ha : Forest k es a) :
    Logs (blockLoop rec n v) fun es' v' =>
      ∃ k' b, Holds v' (⟨loc, some (.value k')⟩ :: b) ∧ Forest k' (es ++ es') b := by
  induction n generalizing v a k es with
  | zero => exact logs_stop (by decide)
  | succ n ih =>
    unfold blockLoop
    refine logs_get_bind fun s _ => ?_
    split
    · exact logs_pure ⟨k, a, hv, by simpa using ha⟩
    · refine logs_bind (logs_statementWith hrec) fun es' w hw => ?_
      refine logs_pushStatement_bind hv ha hw fun k' b v' hv' hb => ?_
      refine logs_mono (ih hv' hb) ?_
      rintro es'' v'' ⟨k'', c, h₁, h₂⟩
      exact ⟨k'', c, h₁, by simpa using h₂⟩

theorem logs_blockCase (hrec : ∀ m, Logs (rec m) Post) (k : Nat) {n : Node2} (hr : n.Read)
    (hn : n.token = .nBlock) : Logs (blockCase k rec n) Post := by
  have hp : n.payload = .value 0 := hr (by rw [hn]; decide) (by rw [hn]; decide)
    (by rw [hn]; decide)
  unfold blockCase
  refine logs_setNodes_bind hr ?_
  refine logs_pushNode2_bind holds_null fun v hv => logs_getToken_bind ?_
  rw [hp] at hv
  refine logs_quiet_bind quiet_scopeEnter fun _ => ?_
  refine logs_bind (logs_blockLoop hrec k hv (Forest.nil clean_nil)) ?_
  rintro es v' ⟨k', b, hv', hb⟩
  refine logs_getToken_bind (logs_quiet_bind quiet_scopeLeave fun _ => logs_pure ?_)
  have hloc : n.loc.token = .nBlock := hn
  refine Forest.post ?_ hv'
  exact Forest.plain (by simpa using hb) (ok_of_count (by rw [hloc]; rfl))
    (by rw [Cell.token, hloc]; rfl) (by simp [arity, Cell.token, hloc, Node.val])

/-- A vector with a tree whose first token is a list header, or not. -/
theorem isList_of_forest {b : List Cell} (hv : Holds v b) (hb : Forest 1 es b) :
    (∃ c rest, b = c :: rest ∧ isList v = pure (decide (c.token = .tComma))) ∨
      (b = [] ∧ isList v = pure false) := by
  cases b with
  | nil =>
    refine .inr ⟨rfl, ?_⟩
    rw [isList, if_pos (hv.null.mpr rfl)]
  | cons c rest =>
    refine .inl ⟨c, rest, rfl, ?_⟩
    rw [isList, if_neg (by rw [hv.live]; decide), hv.headToken]
    rfl

/-- The tree behind a list header is a list, with as many operands as the header says. -/
theorem Forest.list {rest : List Cell} (h : Forest 1 es (c :: rest)) (hc : c.token = .tComma)
    (hclean : Clean es) : ∃ n ts, c.payload = some (.value n) ∧ ts.length = n ∧
      (Term.node c ts).All (NodeOk (reserved es)) ∧ rest = Term.flattenAll ts := by
  obtain ⟨t, hall, he⟩ := h.one hclean
  cases t with
  | node d ts =>
    rw [Term.flatten_node] at he
    obtain ⟨rfl, rfl⟩ := List.cons.inj he
    obtain ⟨n, hn⟩ := hall.root.ok.2 (.inr hc)
    refine ⟨n, ts, hn, ?_, hall, rfl⟩
    rw [hall.root.operands, arity, hc]
    simp [hn, Node.val]

/-- An array node in front of its list. -/
theorem Forest.array {loc : Loc} {rest : List Cell} {off len : Nat} (h : Forest 1 es (c :: rest))
    (hloc : loc.token = .nArray) (hc : c.token = .tComma) (hlen : c.payload = some (.value len)) :
    Forest 1 (es ++ [.reserve off len]) (⟨loc, some (.value off)⟩ :: c :: rest) := by
  have hok : (⟨loc, some (.value off)⟩ : Cell).Ok := ok_of_count (by rw [hloc]; rfl)
  have hforest : Forest 1 (es ++ [.reserve off len]) (c :: rest) := by
    have hreserve : Forest 0 [.reserve off len] [] := Forest.nil (by simp [Clean])
    simpa using h.append hreserve
  refine hforest.node hok (by rw [Cell.token, hloc]; rfl) (by simp [arity, Cell.token, hloc])
    fun hclean => ?_
  obtain ⟨n, ts, hn, hl, hall, hrest⟩ := hforest.list hc hclean
  rw [hlen] at hn
  cases hn
  refine ⟨[.node c ts], by simpa using hall, by simp [hrest], ?_⟩
  exact {
    ok := hok
    known := by rw [Cell.token, hloc]; rfl
    operands := by simp [arity, Cell.token, hloc]
    call := fun ht => by rw [Cell.token, hloc] at ht; cases ht
    array := fun _ => ⟨_, off, rfl, hc, rfl, List.mem_filterMap.mpr
      ⟨.reserve off len, by simp, by simp [Term.children, hl]⟩⟩
    function := fun ht => by rw [Cell.token, hloc] at ht; cases ht }

/-- An array node in front of a single element. -/
theorem Forest.bareArray {loc : Loc} {rest : List Cell} {off : Nat} (h : Forest 1 es (c :: rest))
    (hloc : loc.token = .nArray) (hc : c.token ≠ .tComma) :
    Forest 1 (es ++ [.bare, .reserve off 1]) (⟨loc, some (.value off)⟩ :: c :: rest) where
  ok d hd := by
    rcases List.mem_cons.mp hd with rfl | hd
    · exact ok_of_count (by rw [hloc]; rfl)
    · exact h.ok d hd
  known d hd := by
    rcases List.mem_cons.mp hd with rfl | hd
    · rw [Cell.token, hloc]
      rfl
    · exact h.known d hd
  weight := by
    have := h.weight
    have hk : arity ⟨loc, some (.value off)⟩ = 1 := by simp [arity, Cell.token, hloc]
    rw [Term.weight_cons, hk, List.count_append]
    simpa using this
  bare _ := ⟨[], ⟨loc, some (.value off)⟩, c, rest, rfl, hloc, hc⟩
  trees hclean := absurd hclean.2 (by simp)

/-- The elements of an array literal; whatever the offset will be, the literal is a tree up to
    the defects that are recorded. -/
theorem logs_arrayElements (hrec : ∀ m, Logs (rec m) Post) {n : Node2} (hn : n.token = .nArray)
    (hv : Holds v [⟨n.loc, some (.value 0)⟩]) :
    Logs (arrayElements rec v n) fun es v' =>
      ∃ len b, Holds v' (⟨n.loc, some (.value len)⟩ :: b) ∧
        ∀ off, Forest 1 (es ++ [.reserve off len]) (⟨n.loc, some (.value off)⟩ :: b) := by
  have hloc : n.loc.token = .nArray := hn
  have hempty : ∀ {es : List Event}, Clean es →
      Logs (pushNode2 v { n.setToken .tComma with payload := .value 0 }) fun es' v' =>
        ∃ len b, Holds v' (⟨n.loc, some (.value len)⟩ :: b) ∧
          ∀ off, Forest 1 ((es ++ es') ++ [.reserve off len]) (⟨n.loc, some (.value off)⟩ :: b) := by
    intro es hc
    rw [← Run.bind_pure (pushNode2 _ _)]
    refine logs_pushNode2_bind hv fun v' hv' => logs_pure ⟨0, _, hv', fun off => ?_⟩
    refine Forest.array ?_ hloc rfl rfl
    simpa using (Forest.nil hc).append (forest_emptyList rfl)
  unfold arrayElements
  refine logs_get_bind fun s _ => ?_
  split
  · refine logs_bind (hrec _) fun es body hbody => ?_
    obtain ⟨b, hb, ⟨rfl, hc⟩ | ⟨hne, hforest⟩⟩ := hbody
    · rw [if_pos (hb.null.mpr rfl)]
      exact hempty hc
    · rw [if_neg fun hnull => hne (hb.null.mp hnull)]
      obtain ⟨c, rest, rfl, hlist⟩ | ⟨rfl, -⟩ := isList_of_forest hb hforest
      · rw [hlist, Run.pure_bind']
        split
        · rename_i hc
          have hc : c.token = .tComma := by simpa using hc
          obtain ⟨len, hlen⟩ := (hforest.ok c List.mem_cons_self).2 (.inr hc)
          rw [hb.payloadValue hlen, Run.pure_bind', ← Run.bind_pure (Run.lift _)]
          refine logs_pushVector (hv.setPayload rfl len) hb fun v' hv' => logs_pure ?_
          exact ⟨len, _, hv', fun off => by simpa using hforest.array hloc hc hlen⟩
        · rename_i hc
          have hc : c.token ≠ .tComma := by simpa using hc
          refine logs_note_bind (by decide) ?_
          rw [← Run.bind_pure (Run.lift _)]
          refine logs_pushVector (hv.setPayload rfl 1) hb fun v' hv' => logs_pure ?_
          exact ⟨1, _, hv', fun off => by simpa using hforest.bareArray hloc hc⟩
      · exact absurd rfl hne
  · exact logs_mono (hempty clean_nil) fun es v h => by simpa using h

theorem logs_arrayCase (hrec : ∀ m, Logs (rec m) Post) {n : Node2} (hr : n.Read)
    (hn : n.token = .nArray) : Logs (arrayCase rec n) Post := by
  have hp : n.payload = .value 0 := hr (by rw [hn]; decide) (by rw [hn]; decide)
    (by rw [hn]; decide)
  unfold arrayCase
  refine logs_setNodes_bind hr ?_
  refine logs_pushNode2_bind holds_null fun v hv => logs_getToken_bind ?_
  rw [hp] at hv
  refine logs_bind (logs_arrayElements hrec hn hv) ?_
  rintro es v' ⟨len, b, hv', hb⟩
  rw [hv'.payloadValue rfl, Run.pure_bind']
  refine logs_get_bind fun s _ => ?_
  refine logs_quiet_bind (quiet_modify (fun _ => rfl) fun _ => rfl) fun _ => ?_
  refine logs_note_bind (by simp) (logs_expectAndNext_bind (logs_pure ?_))
  exact Forest.post (by simpa using hb s.data.length) (hv'.setPayload rfl s.data.length)

theorem logs_ifCase (hrec : ∀ m, Logs (rec m) Post) {n : Node2} (hn : n.token = .tIf) :
    Logs (ifCase rec n) Post := by
  unfold ifCase
  refine logs_pushLoc_bind holds_null fun v hv => logs_getToken_bind ?_
  refine logs_read_bind (logs_statementWith hrec) hv fun es b v hv hb => ?_
  refine logs_read_bind (logs_statementWith hrec) hv fun es' b' v hv hb' => ?_
  refine logs_get_bind fun s _ => ?_
  have hif := (hb.append hb').narrow hn (by decide)
  dsimp only
  split
  · rename_i he
    refine logs_fpushLoc_bind hv fun v hv => logs_getToken_bind ?_
    refine logs_read (logs_statementWith hrec) hv fun es'' b'' v hv hb'' => ?_
    refine Forest.post ?_ (by simpa using hv)
    simpa using (hif.append hb'').narrow he (by decide)
  · exact logs_pure (Forest.post (by simpa using hif) (by simpa using hv))

theorem logs_declareFunction (name : CStr) :
    Logs (declareFunction name) fun es _ => Clean es ∧ reserved es = [] := by
  refine logs_get_bind fun s _ => ?_
  refine logs_lift_bind (safe_varLookup _ _ _) fun r _ => ?_
  split
  · exact logs_declare name
  · refine logs_lift_bind (safe_at _ _) fun var _ => ?_
    split
    · exact logs_stop (by decide)
    · exact logs_declare name

/-- The header that a list `b` needs: none, or that of a single element. -/
def Header (h b : List Cell) : Prop :=
  (h = [] ∧ ∃ c rest, b = c :: rest ∧ c.token = .tComma) ∨
    ∃ loc, loc.token = .tComma ∧ h = [⟨loc, some (.value 1)⟩]

/-- With its header an operand is a list. -/
theorem Forest.headed {h : List Cell} (hb : Forest 1 es b) (hh : Header h b) :
    Forest 1 es (h ++ b) ∧ (Clean es → ∃ t : Term Cell, t.All (NodeOk (reserved es)) ∧
      t.label.token = .tComma ∧ h ++ b = t.flatten) := by
  have hlist : ∀ {c : Cell} {rest : List Cell}, Forest 1 es (c :: rest) → c.token = .tComma →
      Clean es → ∃ t : Term Cell, t.All (NodeOk (reserved es)) ∧ t.label.token = .tComma ∧
        c :: rest = t.flatten := by
    intro c rest hf hc hclean
    obtain ⟨n, ts, -, -, hall, rfl⟩ := hf.list hc hclean
    exact ⟨_, hall, hc, by simp⟩
  obtain ⟨rfl, c, rest, rfl, hc⟩ | ⟨loc, hloc, rfl⟩ := hh
  · exact ⟨hb, hlist hb hc⟩
  · have hf : Forest 1 es (⟨loc, some (.value 1)⟩ :: b) :=
      hb.plain (ok_of_count (by rw [hloc]; rfl)) (by rw [Cell.token, hloc]; rfl)
        (by simp [arity, Cell.token, hloc, Node.val])
    exact ⟨hf, hlist hf hloc⟩

theorem logs_functionHeader {comma : Node2} (hv : Holds v a) (hb : Holds w b)
    (ho : Operand es b) : Logs (functionHeader v w comma) fun es' r =>
      es' = [] ∧ ∃ h, Holds r.1 (a ++ h) ∧ Header h b := by
  have hheader : Logs (do
      let left ← pushNode2 v { comma.setToken .tComma with payload := .value 1 }
      pure (left, 1)) fun es' r => es' = [] ∧ ∃ h, Holds r.1 (a ++ h) ∧ Header h b :=
    logs_pushNode2_bind hv fun v' hv' => logs_pure ⟨rfl, _, hv', .inr ⟨_, rfl, rfl⟩⟩
  unfold functionHeader
  obtain ⟨rfl, hc⟩ | ⟨hne, hforest⟩ := ho
  · rw [isList, if_pos (hb.null.mpr rfl), Run.pure_bind', if_neg (by decide)]
    exact hheader
  · obtain ⟨c, rest, rfl, hlist⟩ | ⟨rfl, -⟩ := isList_of_forest hb hforest
    · rw [hlist, Run.pure_bind']
      split
      · rename_i hc
        have hc : c.token = .tComma := by simpa using hc
        obtain ⟨n, hn⟩ := (hforest.ok c List.mem_cons_self).2 (.inr hc)
        rw [hb.payloadValue hn, Run.pure_bind']
        exact logs_pure ⟨rfl, [], by simpa using hv, .inl ⟨rfl, c, rest, rfl, hc⟩⟩
      · exact hheader
    · exact absurd rfl hne

theorem label_of_flatten {t : Term Cell} (h : c :: cells = t.flatten) : t.label = c := by
  obtain ⟨rest, hr⟩ := flatten_eq_label_cons t
  rw [hr] at h
  exact (List.cons.inj h).1.symm

/-- A definition: its name, its parameters as a list, and its body. -/
theorem Forest.function {es₁ es₂ es₃ : List Event} {loc name : Loc} {x : Node} {h b b' : List Cell}
    (hloc : loc.token = .tAt) (hname : name.token = .tIdentifier) (hclean : Clean es₁)
    (hb : Forest 1 es₂ b) (hh : Header h b) (hb' : Forest 1 es₃ b') :
    Forest 1 (es₁ ++ (es₂ ++ es₃)) (⟨loc, none⟩ :: ⟨name, some x⟩ :: (h ++ b ++ b')) := by
  have hn : Forest 1 es₁ [⟨name, some x⟩] := by
    simpa using (Forest.nil hclean).append (forest_leaf hname (by decide))
  obtain ⟨hargs, hlist⟩ := hb.headed hh
  have hok : (⟨loc, none⟩ : Cell).Ok := ok_of_narrow (by rw [hloc]; rfl)
  refine (hn.append (hargs.append hb')).node hok (by rw [Cell.token, hloc]; rfl)
    (by simp [arity, Cell.token, hloc]) fun hc => ?_
  obtain ⟨tn, htn, hen⟩ := hn.one hclean
  obtain ⟨ta, hta, hla, hea⟩ := hlist (clean_append.mp (clean_append.mp hc).2).1
  obtain ⟨tb, htb, heb⟩ := hb'.one (clean_append.mp (clean_append.mp hc).2).2
  refine ⟨[tn, ta, tb], ?_, by simp [← hen, ← hea, ← heb], ?_⟩
  · intro t ht
    simp only [List.mem_cons, List.not_mem_nil, or_false] at ht
    rcases ht with rfl | rfl | rfl
    · exact all_reserved_mono (by simp) htn
    · exact all_reserved_mono (by simp) hta
    · exact all_reserved_mono (by simp) htb
  · exact {
      ok := hok
      known := by rw [Cell.token, hloc]; rfl
      operands := by simp [arity, Cell.token, hloc]
      call := fun ht => by rw [Cell.token, hloc] at ht; cases ht
      array := fun ht => by rw [Cell.token, hloc] at ht; cases ht
      function := fun _ => ⟨tn, ta, tb, rfl, by rw [label_of_flatten hen]; exact hname, hla⟩ }

theorem logs_functionBody (hrec : ∀ m, Logs (rec m) Post) {n name : Node2} {str : CStr}
    (hn : n.token = .tAt) (hname : name.token = .tIdentifier)
    (hv : Holds v [⟨n.loc, none⟩, ⟨name.loc, some name.payload⟩]) :
    Logs (functionBody host rec v str) Post := by
  unfold functionBody
  refine logs_bind (logs_declareFunction str) fun es₁ _ hes₁ => logs_getToken_bind ?_
  refine logs_quiet_bind quiet_scopeEnter fun _ => logs_get_bind fun s _ => ?_
  refine logs_bind (logs_statementWith hrec) ?_
  rintro es₂ args ⟨b, hb, ho⟩
  refine logs_bind (logs_functionHeader hv hb ho) ?_
  rintro _ ⟨left, argc⟩ ⟨rfl, h, hleft, hh⟩
  refine logs_quiet_bind (quiet_functionType _ _) fun type => ?_
  refine logs_quiet_bind (quiet_setVarType _ _) fun _ => ?_
  refine logs_splice_bind hleft hb ho fun es₃ v' hv' hargs => ?_
  refine logs_read_bind (logs_statementWith hrec) hv' fun es₄ b' v'' hv'' hbody => ?_
  refine logs_quiet_bind quiet_scopeLeave fun _ => logs_pure ?_
  refine Forest.post ?_ (by simpa using hv'')
  simpa using Forest.function hn hname hes₁.1 hargs hh hbody

theorem logs_functionCase (hrec : ∀ m, Logs (rec m) Post) {n : Node2} (hn : n.token = .tAt) :
    Logs (functionCase host rec n) Post := by
  unfold functionCase
  refine logs_getToken_bind (logs_get_bind fun s _ => ?_)
  dsimp only
  split
  · exact logs_getToken_bind (logs_pure post_null)
  · split
    · rename_i hname
      refine logs_pushLoc_bind holds_null fun v hv => ?_
      refine logs_pushNode2_bind hv fun v hv => ?_
      split
      · exact logs_functionBody hrec hn hname hv
      · exact logs_stop (by decide)
    · exact logs_pure post_null

theorem logs_operand (hrec : ∀ m, Logs (rec m) Post) (k : Nat) {n : Node2} (hr : n.Read) :
    Logs (operand host k rec n) fun es r => Post es r.1 := by
  have hlast : ∀ {x : Comp Nodes} {d : Bool}, Logs x Post →
      Logs (do return (← x, d)) fun es r => Post es r.1 := fun hx =>
    logs_bind hx fun es v hv => logs_pure (by simpa using hv)
  have hset : ∀ {t t' : CTType}, n.token = t → t ≠ .tIdentifier → t ≠ .tNumber → t ≠ .tString →
      (n.setToken t').Read := fun ht h₁ h₂ h₃ _ _ _ =>
    hr (by rw [ht]; exact h₁) (by rw [ht]; exact h₂) (by rw [ht]; exact h₃)
  unfold operand
  split
  · exact hlast logs_importCase
  · exact hlast (logs_externalCase k)
  · exact hlast (logs_functionCase hrec ‹_›)
  · exact hlast (logs_leafCase (by simp [*]))
  · exact hlast (logs_leafCase (by simp [*]))
  · exact hlast (logs_leafCase (by simp [*]))
  · exact hlast (logs_leafCase (by simp [*]))
  · exact hlast (logs_whileCase hrec ‹_›)
  · exact hlast (logs_returnCase hrec ‹_›)
  · exact hlast (logs_unaryCase hrec (hset ‹_› (by decide) (by decide) (by decide)) (.inl rfl))
  · exact hlast (logs_unaryCase hrec hr (.inr ‹_›))
  · exact hlast (logs_identifierCase ‹_›)
  · exact hlast (logs_stringCase ‹_›)
  · exact hlast (logs_numberCase ‹_›)
  · exact hlast (logs_bracketCase hrec)
  · exact hlast (logs_blockCase hrec k (hset ‹_› (by decide) (by decide) (by decide)) rfl)
  · exact hlast (logs_arrayCase hrec (hset ‹_› (by decide) (by decide) (by decide)) rfl)
  · exact hlast (logs_ifCase hrec ‹_›)
  · exact logs_stop (by decide)
  · exact logs_stop (by decide)

/-! ## Operators -/

theorem logs_rightOperand (hrec : ∀ m, Logs (rec m) Post) {op : Node2} :
    Logs (rightOperand rec op) Post := by
  unfold rightOperand
  refine logs_get_bind fun s _ => ?_
  split
  · rw [← Run.bind_pure (pushNode2 _ _)]
    exact logs_pushNode2_bind holds_null fun v hv => logs_pure ((forest_emptyList rfl).post hv)
  · dsimp only
    generalize (if op.token = .tCall ∨ op.token = .tOsb then cupDefPower
      else getPower op.token) = power
    split
    · refine logs_quiet_bind (quiet_modify (fun _ => rfl) fun _ => rfl) fun _ => ?_
      refine logs_bind (hrec _) fun es v hv => ?_
      refine logs_quiet_bind (quiet_modify (fun _ => rfl) fun _ => rfl) fun _ => ?_
      exact logs_pure (by simpa using hv)
    · exact hrec _

section Combine

variable {op : Node2} {es' : List Event}

/-- A call: the callee and a list of arguments. -/
theorem Forest.call {loc : Loc} {h : List Cell} (ha : Forest 1 es a) (hb : Forest 1 es' b)
    (hh : Header h b) (hloc : loc.token = .tCall) :
    Forest 1 (es ++ es') (⟨loc, none⟩ :: (a ++ (h ++ b))) := by
  obtain ⟨hargs, hlist⟩ := hb.headed hh
  have hok : (⟨loc, none⟩ : Cell).Ok := ok_of_narrow (by rw [hloc]; rfl)
  refine (ha.append hargs).node hok (by rw [Cell.token, hloc]; rfl)
    (by simp [arity, Cell.token, hloc]) fun hc => ?_
  obtain ⟨tf, htf, hef⟩ := ha.one (clean_append.mp hc).1
  obtain ⟨ta, hta, hla, hea⟩ := hlist (clean_append.mp hc).2
  refine ⟨[tf, ta], ?_, by simp [← hef, ← hea], ?_⟩
  · intro t ht
    simp only [List.mem_cons, List.not_mem_nil, or_false] at ht
    rcases ht with rfl | rfl
    · exact all_reserved_mono (by simp) htf
    · exact all_reserved_mono (by simp) hta
  · exact {
      ok := hok
      known := by rw [Cell.token, hloc]; rfl
      operands := by simp [arity, Cell.token, hloc]
      call := fun _ => ⟨tf, ta, rfl, hla⟩
      array := fun ht => by rw [Cell.token, hloc] at ht; cases ht
      function := fun ht => by rw [Cell.token, hloc] at ht; cases ht }

theorem logs_callOp (hv : Holds v a) (ha : Forest 1 es a) (hw : Holds w b) (hb : Forest 1 es' b)
    (hop : op.token = .tCall) :
    Logs (callOp op v w) fun es'' r => Post (es ++ es' ++ es'') r := by
  unfold callOp
  refine logs_get_bind fun s _ => ?_
  split
  · exact logs_stop (by decide)
  · refine logs_getToken_bind (logs_fpushLoc_bind hv fun v hv => ?_)
    cases b with
    | nil => exact logs_operandToken_nil hw
    | cons c rest =>
      rw [hw.operandToken, Run.pure_bind']
      split
      · refine logs_pushNode2_bind hv fun v hv => ?_
        rw [← Run.bind_pure (Run.lift _)]
        refine logs_pushVector hv hw fun v hv => logs_pure ?_
        refine Forest.post ?_ (by simpa using hv)
        simpa using ha.call hb (.inr ⟨(op.setToken .tComma).loc, rfl, rfl⟩) hop
      · rename_i hc
        rw [not_not] at hc
        rw [← Run.bind_pure (Run.lift _)]
        refine logs_pushVector hv hw fun v hv => logs_pure ?_
        refine Forest.post ?_ hv
        simpa using ha.call hb (.inl ⟨rfl, c, rest, rfl, hc⟩) hop

theorem logs_eqOp (hv : Holds v a) (ha : Forest 1 es a) (hw : Holds w b) (hb : Forest 1 es' b)
    (hop : op.token = .tEq) : Logs (eqOp op v w) fun es'' r => Post (es ++ es' ++ es'') r := by
  unfold eqOp
  refine logs_fpushLoc_bind hw fun w hw => ?_
  rw [← Run.bind_pure (Run.lift _)]
  refine logs_fpushVector hv hw (by simp) fun v hv => logs_pure (Forest.post ?_ hv)
  have hforest := ((hb.append ha).narrow hop (by decide)).perm List.perm_append_comm
  simpa using hforest

theorem logs_binaryOp (hv : Holds v a) (ha : Forest 1 es a) (hw : Holds w b)
    (hb : Forest 1 es' b) {t : CTType} (hop : op.token = t)
    (ht : wide t = false ∧ plain t = true ∧ arity ⟨⟨t, 0, 0⟩, none⟩ = 1 + 1) :
    Logs (binaryOp op v w) fun es'' r => Post (es ++ es' ++ es'') r := by
  unfold binaryOp
  refine logs_fpushLoc_bind hv fun v hv => ?_
  rw [← Run.bind_pure (Run.lift _)]
  refine logs_pushVector hv hw fun v hv => logs_pure (Forest.post ?_ hv)
  simpa using (ha.append hb).narrow hop ht

theorem logs_indexOp (hv : Holds v a) (ha : Forest 1 es a) (hw : Holds w b)
    (hb : Forest 1 es' b) (hop : op.token = .tOsb) :
    Logs (indexOp op v w) fun es'' r => Post (es ++ es' ++ es'') r := by
  unfold indexOp
  refine logs_get_bind fun s _ => ?_
  split
  · exact logs_stop (by decide)
  · exact logs_getToken_bind (logs_binaryOp hv ha hw hb hop (by decide))

/-- The operands of a list. -/
theorem Forest.tail {rest : List Cell} {n : Nat} (h : Forest 1 es (c :: rest))
    (hc : c.token = .tComma) (hn : c.payload = some (.value n)) : Forest n es rest where
  ok d hd := h.ok d (List.mem_cons_of_mem _ hd)
  known d hd := h.known d (List.mem_cons_of_mem _ hd)
  weight := by
    have hw := h.weight
    have hk : arity c = n := by simp [arity, hc, hn, Node.val]
    rw [Term.weight_cons, hk] at hw
    omega
  bare hb := (h.bare hb).tail (by rw [hc]; decide)
  trees hclean := by
    obtain ⟨m, ts, hm, hl, hall, he⟩ := h.list hc hclean
    rw [hn] at hm
    cases hm
    exact ⟨ts, hl, fun t ht => hall.child ht, he⟩

theorem vectorFpop_header {rest : List Cell} {x : Node} (hv : Holds v (c :: rest))
    (hc : c.payload = some x) : ∃ v', vectorFpop v 2 = .ok v' ∧ v'.items = encode rest ∧
      v'.buf = if rest = [] then .freed else .live := by
  have hitems : v.items = .tok c.loc :: x :: encode rest := by
    rw [hv.items]
    simp [Cell.nodes, hc]
  unfold vectorFpop vectorPop
  rw [if_neg (by decide), hitems, hv.live]
  by_cases hr : rest = []
  · subst hr
    exact ⟨_, rfl, rfl, rfl⟩
  · have hne : encode rest ≠ [] := fun he => hr (encode_eq_nil.mp he)
    have hlen : 0 < (encode rest).length := List.length_pos_iff.mpr hne
    rw [if_neg (by simp; omega), if_neg hr]
    refine ⟨{ buf := .live, items := encode rest, capacity := v.capacity }, ?_, rfl, rfl⟩
    change (if List.take _ _ = [] then _ else _) = _
    rw [if_neg (by simp; omega)]
    rfl

/-- The assertion that a list without elements behind its header runs into. -/
theorem logs_emptyTail {Q : List Event → Nodes → Prop} (hw : w.buf = .freed) (hi : w.items = []) :
    Logs (do note .emptyTail; Run.lift (pushVector 8 v w)) Q := by
  intro s _
  have hstop : pushVector 8 v w = .error vecAssert := by
    unfold pushVector vectorPush
    rw [hw, if_pos hi]
    rfl
  rw [hstop]
  exact ⟨[.emptyTail], rfl, by simp⟩

theorem logs_commaOp (hv : Holds v a) (ha : Forest 1 es a) (hw : Holds w b)
    (hb : Forest 1 es' b) (hop : op.token = .tComma) :
    Logs (commaOp op v w) fun es'' r => Post (es ++ es' ++ es'') r := by
  have hloc : op.loc.token = .tComma := hop
  have hok : ∀ n, (⟨op.loc, some (.value n)⟩ : Cell).Ok := fun n => ok_of_count (by rw [hloc]; rfl)
  have hp : plain op.loc.token := by rw [hloc]; rfl
  have hk : ∀ n, arity ⟨op.loc, some (.value n)⟩ = n := fun n => by
    simp [arity, Cell.token, hloc, Node.val]
  unfold commaOp
  cases b with
  | nil => exact logs_operandToken_nil hw
  | cons c rest =>
    rw [hw.operandToken, Run.pure_bind']
    split
    · rename_i hc
      obtain ⟨n, hn⟩ := (hb.ok c List.mem_cons_self).2 (.inr hc)
      rw [hw.payloadValue hn, Run.pure_bind']
      refine logs_fpushCell_bind hv fun v hv => ?_
      obtain ⟨w', hpop, hi, hbuf⟩ := vectorFpop_header hw hn
      rw [hpop]
      refine logs_lift_bind (safe_ok _) fun w'' h => ?_
      cases h
      split
      · rename_i hnil
        rw [hi, encode_eq_nil] at hnil
        exact logs_emptyTail (by rw [hbuf, if_pos hnil]) (by rw [hi, hnil]; rfl)
      · rename_i hne
        rw [hi, encode_eq_nil] at hne
        have hw' : Holds w' rest := by
          refine ⟨hi, ?_, ?_⟩
          · rw [hbuf, if_neg hne]; decide
          · rw [hbuf, if_neg hne]; simp [hne]
        rw [← Run.bind_pure (Run.lift _)]
        refine logs_pushVector hv hw' fun v hv => logs_pure (Forest.post ?_ hv)
        simpa using (ha.append (hb.tail hc hn)).plain (hok (n + 1)) hp (by rw [hk]; omega)
    · refine logs_fpushCell_bind hv fun v hv => ?_
      rw [← Run.bind_pure (Run.lift _)]
      refine logs_pushVector hv hw fun v hv => logs_pure (Forest.post ?_ hv)
      simpa using (ha.append hb).plain (hok 2) hp (hk 2)

theorem logs_combine (hv : Holds v a) (ha : Forest 1 es a) (hw : Holds w b)
    (hb : Forest 1 es' b) : Logs (combine op v w) fun es'' r => Post (es ++ es' ++ es'') r := by
  unfold combine
  split
  · exact logs_callOp hv ha hw hb ‹_›
  · exact logs_eqOp hv ha hw hb ‹_›
  · exact logs_commaOp hv ha hw hb ‹_›
  · exact logs_indexOp hv ha hw hb ‹_›
  · exact logs_binaryOp hv ha hw hb ‹_› (by decide)
  · exact logs_binaryOp hv ha hw hb ‹_› (by decide)
  · exact logs_binaryOp hv ha hw hb ‹_› (by decide)
  · exact logs_binaryOp hv ha hw hb ‹_› (by decide)
  · exact logs_binaryOp hv ha hw hb ‹_› (by decide)
  · exact logs_binaryOp hv ha hw hb ‹_› (by decide)
  · exact logs_binaryOp hv ha hw hb ‹_› (by decide)
  · exact logs_binaryOp hv ha hw hb ‹_› (by decide)
  · exact logs_stop (by decide)

end Combine

/-- The operator loop keeps the operand it holds a tree. -/
theorem logs_operatorLoop (hrec : ∀ m, Logs (rec m) Post) (mpower n : Nat) {es : List Event}
    (hv : Post es v) : Logs (operatorLoop rec mpower n v) fun es' r => Post (es ++ es') r := by
  induction n generalizing v es with
  | zero => exact logs_stop (by decide)
  | succ n ih =>
    unfold operatorLoop
    refine logs_get_bind fun s _ => ?_
    dsimp only
    split
    · exact logs_stop (by decide)
    · split
      · exact logs_pure (by simpa using hv)
      · obtain ⟨a, ha, ho⟩ := hv
        refine logs_noteMissing_bind ha ho fun es₁ hforest => logs_getToken_bind ?_
        refine logs_bind (logs_rightOperand hrec) ?_
        rintro es₂ w ⟨b, hb, ho'⟩
        refine logs_noteMissing_bind hb ho' fun es₃ hforest' => ?_
        refine logs_bind (logs_combine ha hforest hb hforest') fun es₄ r hr => ?_
        exact logs_mono (ih hr) fun es₅ r h => by simpa using h

/-- `primary` returns nothing or a tree, up to the defects that it records. -/
theorem logs_primaryFuel (n mpower : Nat) : Logs (primaryFuel host n mpower) Post := by
  induction n generalizing mpower with
  | zero => exact logs_stop (by decide)
  | succ n ih =>
    unfold primaryFuel
    refine logs_get_bind fun s hs => ?_
    refine logs_bind (logs_operand ih n hs) ?_
    rintro es ⟨left, done⟩ hleft
    dsimp only
    split
    · exact logs_pure (by simpa using hleft)
    · exact logs_operatorLoop ih mpower n hleft

end Operands

/-! ## Well-formed results -/

/-- The events of a run from `s` to `s'`. -/
def newEvents (s s' : CUPState) : List Event := s'.trace.drop s.trace.length

/-- What the readers of a stream rely on: a run that returns gives nothing or one well-formed
    tree, with the array storage that the run reserved, and no run ends in the assertion of a
    vector. -/
def ReturnsTree (x : Comp Nodes) (s : CUPState) : Prop :=
  x.Sat s (fun v s' => WellFormed (reserved (newEvents s s')) v.items) fun e _ => e ≠ vecAssert

/-- A run that returns spliced no empty vector where a tree is read and left no array literal of
    one element without its list header; a run that stops extended no list by an empty list. -/
def Regular (x : Comp Nodes) (s : CUPState) : Prop :=
  x.Sat s (fun _ s' => Clean (newEvents s s')) fun _ s' => .emptyTail ∉ newEvents s s'

/-- A recorded defect stays visible in the nodes. -/
theorem Forest.clean_of_tree {es : List Event} {cells : List Cell} (h : Forest 1 es cells)
    {t : Term Cell} {r : List (Nat × Nat)} (ht : t.All (NodeOk r))
    (he : encode cells = encode t.flatten) : Clean es := by
  have hcells : cells = t.flatten := encode_inj h.ok (ok_of_mem_flatten ht) he
  subst hcells
  constructor
  · intro hm
    have hw := h.weight
    rw [Term.weight_flatten (ranked_of_nodeOk ht)] at hw
    have := List.count_pos_iff.mpr hm
    omega
  · exact fun hb => not_bare_flatten ht (h.bare hb)

theorem Post.wellFormed_iff {es : List Event} {v : Nodes} (h : Post es v) :
    WellFormed (reserved es) v.items ↔ Clean es := by
  obtain ⟨cells, hv, ⟨rfl, hc⟩ | ⟨hne, hforest⟩⟩ := h
  · exact ⟨fun _ => hc, fun _ => .inl hv.items⟩
  · constructor
    · rintro (hnil | ⟨t, ht, he⟩)
      · rw [hv.items, encode_eq_nil] at hnil
        exact absurd hnil hne
      · exact hforest.clean_of_tree ht (hv.items.symm.trans he)
    · intro hc
      obtain ⟨t, ht, rfl⟩ := hforest.one hc
      exact .inr ⟨t, ht, hv.items⟩

theorem newEvents_append {s s' : CUPState} {es : List Event} (h : s'.trace = s.trace ++ es) :
    newEvents s s' = es := by
  rw [newEvents, h, List.drop_left]

theorem Logs.returnsTree_iff {x : Comp Nodes} (h : Logs x Post) {s : CUPState}
    (hs : s.nodes.Read) : ReturnsTree x s ↔ Regular x s := by
  have hx := h s hs
  unfold ReturnsTree Regular
  unfold Run.Sat at hx ⊢
  cases hr : x s with
  | ok v s' =>
    rw [hr] at hx
    obtain ⟨-, es, he, -, hpost⟩ := hx
    dsimp only
    rw [newEvents_append he]
    exact hpost.wellFormed_iff
  | stop e s' =>
    rw [hr] at hx
    obtain ⟨es, he, hiff⟩ := hx
    dsimp only
    rw [newEvents_append he, Ne, hiff]

/-- To any depth, what `primary` and `statement` return is nothing or one well-formed tree, and
    no vector operation fails its assertion, exactly when the run takes none of the branches
    that lose a tree or a list header. -/
theorem parser_wellFormed_iff (host : Host) (n mpower : Nat) (s : CUPState)
    (hs : s.nodes.Read) :
    (ReturnsTree (primaryFuel host n mpower) s ↔ Regular (primaryFuel host n mpower) s) ∧
      (ReturnsTree (statementWith (primaryFuel host n)) s ↔
        Regular (statementWith (primaryFuel host n)) s) :=
  ⟨(logs_primaryFuel n mpower).returnsTree_iff hs,
    (logs_statementWith (logs_primaryFuel n)).returnsTree_iff hs⟩

/-! ## Runs on fixed inputs -/

/-- A host without modules and libraries. -/
def bareHost : Host where
  mem _ _ := .null
  dlsym _ _ := 0
  dlopen _ := 0
  fopen _ := false

instance {σ α : Type} {x : Run σ α} {s : σ} {Q : α → σ → Prop} {E : Stop → σ → Prop}
    [∀ a s', Decidable (Q a s')] [∀ e s', Decidable (E e s')] : Decidable (x.Sat s Q E) :=
  match h : x s with
  | .ok _ _ => decidable_of_iff _ (Run.sat_of_ok h).symm
  | .stop _ _ => decidable_of_iff _ (Run.sat_of_stop h).symm

instance {es : List Event} : Decidable (Clean es) := inferInstanceAs (Decidable (_ ∧ _))

instance {x : Comp Nodes} {s : CUPState} : Decidable (Regular x s) :=
  inferInstanceAs (Decidable (Run.Sat _ _ _ _))

/-- The text `(1)` behind its bracket. -/
def openBracket : CUPState :=
  { nodes := ⟨⟨.tCall, 1, 1⟩, .value 0⟩, input := ascii ['1', ')'] }

theorem openBracket_read : openBracket.nodes.Read := fun _ _ _ => rfl

theorem parser_wellFormed_iff_brackets :
    (ReturnsTree (primaryFuel bareHost 4 2) openBracket ↔
      Regular (primaryFuel bareHost 4 2) openBracket) ∧
    (ReturnsTree (statementWith (primaryFuel bareHost 4)) openBracket ↔
      Regular (statementWith (primaryFuel bareHost 4)) openBracket) :=
  parser_wellFormed_iff bareHost 4 2 openBracket openBracket_read

/-- The text `[1]`. -/
def arrayOne : CUPState := { input := ascii ['[', '1', ']'] }

theorem arrayOne_read : arrayOne.nodes.Read := fun _ _ _ => rfl

theorem not_regular_arrayOne :
    ¬ Regular (do getToken true; statement bareHost) arrayOne := by
  decide +kernel

theorem logs_statement (host : Host) : Logs (statement host) Post :=
  logs_statementWith fun m => logs_get_bind fun _ _ => logs_primaryFuel _ m

/-- The array literal of the text `[1]` has no list header. -/
theorem not_returnsTree_arrayOne :
    ¬ ∀ host s, ReturnsTree (do getToken true; statement host) s := by
  intro hall
  have hlogs : Logs (do getToken true; statement bareHost) Post :=
    logs_getToken_bind (logs_statement bareHost)
  exact not_regular_arrayOne ((hlogs.returnsTree_iff arrayOne_read).mp (hall bareHost arrayOne))

end Cup
