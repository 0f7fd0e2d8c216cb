/-
  Constant indices (`src/resolver.c`, `osb`). The resolver checks an index against the size in the
  type of the base, and the generator adds eight times the index to the base. The size counts
  elements: those of an array literal have eight bytes each, those of a string literal have one.

  `Denotes` follows a literal from where it is evaluated over the assignments behind it, and
  `LogOk` has what holds of every record in between: a value has the type of the literal that it
  denotes, and that type has its size. So a slot lies in the storage of an array literal, and in
  that of a string literal exactly when the string is long enough (`indexInside_iff`).
-/
import Cup.Consumption
import Cup.Definitions

namespace Cup

open Lib (Stop Run Term)

/-! ## Literals and slots -/

/-- The bytes that are reserved for a literal. -/
def Literal.storage (L : Literal) : Nat :=
  match L.kind with
  | .array => 8 * L.count
  | .string => L.count

/-- `base + 8 * i`, 0 when the base is not known. -/
def slotAddress (base i : Nat) : Nat := if base ≠ 0 then (base + 8 * i) % 2 ^ 64 else 0

/-- The left side of an assignment is the place that `v` is read from: a variable is itself, an
    address can be any slot of its type. -/
inductive SamePlace : CUPValue → CUPValue → Prop where
  | variable (v : Nat) (name name' : Bytes) :
    SamePlace (.variable (some v) name) (.variable (some v) name')
  | slot (type : Option TRef) (p p' : Nat) : SamePlace (.address type p) (.address type p')

/-- In front of the record `k` the value can be the literal `L`: it is the literal, a slot that
    holds elements of its type, or a place it was assigned to. -/
inductive Denotes (log : List ResEvent) : Nat → CUPValue → Literal → Prop where
  | literal {k j a : Nat} {L : Literal} (hj : j < k) (h : log[j]? = some (.literal L a)) :
    Denotes log k (.value (some L.type) a) L
  | element {k j a p : Nat} {L : Literal} (hj : j < k) (h : log[j]? = some (.literal L a)) :
    Denotes log k (.address (some L.type) p) L
  | assigned {k j : Nat} {left right v : CUPValue} {type : Option TRef} {L : Literal} (hj : j < k)
    (h : log[j]? = some (.assigned left right type)) (hright : Denotes log j right L)
    (hsame : SamePlace left v) : Denotes log k v L

theorem SamePlace.typeIn {left v : CUPValue} (h : SamePlace left v) (s : CUPState) :
    v.typeIn s = left.typeIn s := by
  cases h with
  | «variable» => rfl
  | slot => rfl

theorem Denotes.mono {log : List ResEvent} {k k' : Nat} {v : CUPValue} {L : Literal}
    (h : Denotes log k v L) (hk : k ≤ k') : Denotes log k' v L := by
  cases h with
  | literal hj h => exact .literal (hj.trans_le hk) h
  | element hj h => exact .element (hj.trans_le hk) h
  | assigned hj h hright hsame => exact .assigned (hj.trans_le hk) h hright hsame

/-- What a value denotes depends on the records in front of it. -/
theorem Denotes.of_append {log more : List ResEvent} {k : Nat} {v : CUPValue} {L : Literal}
    (h : Denotes (log ++ more) k v L) (hk : k ≤ log.length) : Denotes log k v L := by
  induction h with
  | literal hj h => exact .literal hj (by rwa [List.getElem?_append_left (by omega)] at h)
  | element hj h => exact .element hj (by rwa [List.getElem?_append_left (by omega)] at h)
  | assigned hj h hright hsame ih =>
    rw [List.getElem?_append_left (by omega)] at h
    exact .assigned hj h (ih (by omega)) hsame

/-! ## Records and types -/

/-- The records of the accepted modules, in a state behind them. -/
structure LogOk (log : List ResEvent) (s : CUPState) : Prop where
  linked : ∀ {v L}, Denotes log log.length v L → v.typeIn s = some L.type
  sized : ∀ {L a}, .literal L a ∈ log → L.count < uint16Max ∧
    ∃ ty, typeAt s.types L.type = some ty ∧ ty.size = L.count
  checked : ∀ {left base i p}, .indexed left base i p ∈ log → p = slotAddress base i ∧
    ∃ type ty, left.typeIn s = some type ∧ typeAt s.types type = some ty ∧ i < ty.size

theorem logOk_nil (s : CUPState) : LogOk [] s where
  linked h := by
    cases h with
    | literal hj h => simp at h
    | element hj h => simp at h
    | assigned hj h hright hsame => simp at h
  sized h := by simp at h
  checked h := by simp at h

theorem LogOk.mono {log : List ResEvent} {s s' : CUPState} (h : LogOk log s)
    (hk : TypesKept s s') : LogOk log s' where
  linked hd := typeIn_mono hk (h.linked hd)
  sized hm := by
    obtain ⟨hc, ty, hty, hs⟩ := h.sized hm
    exact ⟨hc, ty, typeAt_of_prefix hk.types hty, hs⟩
  checked hm := by
    obtain ⟨hp, type, ty, hl, hty, hi⟩ := h.checked hm
    exact ⟨hp, type, ty, typeIn_mono hk hl, typeAt_of_prefix hk.types hty, hi⟩

/-- The last record says which literals the values denote from then on. -/
theorem LogOk.linked_snoc {log : List ResEvent} {s : CUPState} {e : ResEvent} (h : LogOk log s)
    (he : ∀ left right type, e = .assigned left right type →
      ∀ L, Denotes log log.length right L → left.typeIn s = some L.type)
    {v : CUPValue} {L : Literal} (hd : Denotes (log ++ [e]) (log ++ [e]).length v L) :
    v.typeIn s = some L.type := by
  cases hd with
  | literal hj h => rfl
  | element hj h => rfl
  | @assigned _ j left right _ type _ hj hget hright hsame =>
    rw [hsame.typeIn]
    rw [List.length_append, List.length_singleton] at hj
    have hright := hright.of_append (by omega)
    by_cases hlt : j < log.length
    · rw [List.getElem?_append_left hlt] at hget
      rw [← hsame.typeIn]
      exact h.linked (.assigned hlt hget hright hsame)
    · obtain rfl : j = log.length := by omega
      rw [List.getElem?_concat_length] at hget
      exact he left right type (Option.some.inj hget) L hright

/-- One more record. -/
theorem LogOk.snoc {log : List ResEvent} {s : CUPState} {e : ResEvent} (h : LogOk log s)
    (hassigned : ∀ left right type, e = .assigned left right type →
      ∀ L, Denotes log log.length right L → left.typeIn s = some L.type)
    (hliteral : ∀ L a, e = .literal L a → L.count < uint16Max ∧
      ∃ ty, typeAt s.types L.type = some ty ∧ ty.size = L.count)
    (hindexed : ∀ left base i p, e = .indexed left base i p → p = slotAddress base i ∧
      ∃ type ty, left.typeIn s = some type ∧ typeAt s.types type = some ty ∧ i < ty.size) :
    LogOk (log ++ [e]) s where
  linked hd := h.linked_snoc hassigned hd
  sized hm := by
    rcases List.mem_append.mp hm with hm | hm
    · exact h.sized hm
    · exact hliteral _ _ (List.mem_singleton.mp hm).symm
  checked hm := by
    rcases List.mem_append.mp hm with hm | hm
    · exact h.checked hm
    · exact hindexed _ _ _ _ (List.mem_singleton.mp hm).symm

/-! ## Accepted modules -/

/-- From `s` to `s'` the records stay right, whatever was recorded before `s`. -/
def LogKept (s s' : ResState) : Prop :=
  ∀ log, LogOk (log ++ s.log) s.cup → LogOk (log ++ s'.log) s'.cup

theorem LogKept.of_log {s s' : ResState} (h : TypesKept s.cup s'.cup) (hl : s'.log = s.log) :
    LogKept s s' := by
  intro log hok
  rw [hl]
  exact hok.mono h

theorem LogKept.trans {s t u : ResState} (h : LogKept s t) (h' : LogKept t u) : LogKept s u :=
  fun log hok => h' log (h log hok)

theorem logKept_copied (s : ResState) (nodes rest : List Node) :
    LogKept s (s.copied nodes rest) :=
  .of_log (.refl _) rfl

theorem logKept_inner (s : ResState) : LogKept s s.inner := .of_log (.of_eq rfl rfl) rfl

theorem logKept_literal {s s' : ResState} {L : Literal} {a : Nat} (h : TypesKept s.cup s'.cup)
    (hl : s'.log = s.log ++ [.literal L a]) (hc : L.count < uint16Max)
    (ht : ∃ ty, typeAt s'.cup.types L.type = some ty ∧ ty.size = L.count) : LogKept s s' := by
  intro log hok
  rw [hl, ← List.append_assoc]
  refine (hok.mono h).snoc ?_ ?_ ?_
  · intro left right type he
    cases he
  · intro L' a' he
    cases he
    exact ⟨hc, ht⟩
  · intro left base i p he
    cases he

theorem logKept_dropped {s s' : ResState} {v : CUPValue} (h : TypesKept s.cup s'.cup)
    (hl : s'.log = s.log ++ [.dropped v]) : LogKept s s' := by
  intro log hok
  rw [hl, ← List.append_assoc]
  refine (hok.mono h).snoc ?_ ?_ ?_
  · intro left right type he
    cases he
  · intro L a he
    cases he
  · intro left base i p he
    cases he

/-- The type of a literal has its size. -/
theorem cupType_array_size {mem : Nat → Nat → Slot} {count : Nat} {data : TData}
    {s s' : CUPState} {t : TRef} (hc : count < uint16Max)
    (h : cupType mem .typeArray count data s = .ok t s') :
    ∃ ty, typeAt s'.types t = some ty ∧ ty.size = count := by
  rw [cupType_apply] at h
  obtain ⟨ty, hty, -, hsize⟩ := cupTypeFuel_entry rfl h
  refine ⟨ty, hty, ?_⟩
  rw [hsize]
  unfold uint16Max at hc
  omega

theorem arrayIndex_eq_ok {type itype element : Option TRef} {base i p : Nat} {s s' : ResState}
    (h : arrayIndex type base (.value itype i) s = .ok (.address element p) s') :
    p = slotAddress base i ∧
      ∃ t ty, type = some t ∧ typeAt s.cup.types t = some ty ∧ i < ty.size := by
  refine (Run.sat_iff_ok (Q := fun v _ => ∀ element p, v = .address element p →
    p = slotAddress base i ∧ ∃ t ty, type = some t ∧ typeAt s.cup.types t = some ty ∧
      i < ty.size)).mp ?_ _ s' h element p rfl
  refine Run.sat_bind.mpr (Run.sat_get.mpr ?_)
  split
  · rename_i alignment size el htype
    obtain ⟨t, rfl, ht⟩ := Option.bind_eq_some_iff.mp htype
    dsimp only
    split
    · exact fun _ _ h => by cases h
    · split
      · exact fun _ _ h => by cases h
      · split
        · exact fun _ _ h => by cases h
        · rename_i hi
          intro element p h
          cases h
          exact ⟨rfl, t, _, rfl, ht, Nat.lt_of_not_le hi⟩
  · exact fun _ _ h => by cases h

/-- The records of accepted trees. -/
theorem infers_logKept {H : ResHost} (hH : Tame H) {s s' : ResState} {r : Inferred}
    (h : Infers H s r s') : LogKept s s' := by
  induction h with
  | number hs ht => exact logKept_copied _ _ _
  | string hs ht hoff hb hlt htype =>
    exact logKept_literal (typesKept_cupType htype) rfl hlt (cupType_array_size hlt htype)
  | array hs ht hlist hlt htype ih =>
    refine LogKept.trans ih (logKept_literal (typesKept_cupType htype) rfl hlt ?_)
    exact cupType_array_size hlt htype
  | this hs ht hv => exact logKept_copied _ _ _
  | identifier hs ht hv => exact .of_log (.of_eq rfl rfl) rfl
  | block hs ht hitems ih => exact ((logKept_inner _).trans (logKept_copied _ _ _)).trans ih
  | comma hs ht hitems ih => exact (logKept_copied _ _ _).trans ih
  | nil => exact .of_log (.refl _) rfl
  | cons hitem hentry hrest ihitem ihrest => exact ihitem.trans ihrest
  | @eq s s₁ s₂ s₃ s₄ loc rest right left v hs ht hright hleft hlog hchecks hv ihright ihleft =>
    have hcup : s₃.cup = s₂.cup := by rw [hlog]; rfl
    have hkept : TypesKept s₂.cup s₄.cup := by
      rw [← hcup]
      exact ((keptFrame hH).eqChecks left right).of_ok hchecks
    obtain ⟨hl, htypes⟩ := eqChecks_types hchecks hv
    have hl : s₄.log = s₂.log ++ [.assigned left right (right.typeIn s₂.cup)] := by
      rw [hl, hlog]
      rfl
    refine ((logKept_copied _ _ _).trans ihright).trans (ihleft.trans fun log hok => ?_)
    rw [hl, ← List.append_assoc]
    refine (hok.mono hkept).snoc ?_ ?_ ?_
    · -- the left side gets the type that the right side has when they are compared
      intro left' right' type he L hd
      cases he
      exact htypes _ (hcup ▸ hok.linked hd)
    · intro L a he
      cases he
    · intro left' base i p he
      cases he
  | member hs ht hleft hname hid hgen hr ih =>
    exact (LogKept.trans (.of_log (.refl _) rfl) ih).trans (.of_log (hH _ _ _ _ _ _ hgen) rfl)
  | call hs ht hleft hargs hgen hr ihleft ihargs =>
    refine (LogKept.trans (.of_log (.refl _) rfl) ihleft).trans ?_
    refine (LogKept.trans (.of_log (.refl _) rfl) ihargs).trans ?_
    exact .of_log (hH _ _ _ _ _ _ hgen) rfl
  | @index s s₁ s₂ loc rest left itype i base p element hs ht hleft hright hindex ihleft ihright =>
    refine ((logKept_copied _ _ _).trans ihleft).trans (ihright.trans fun log hok => ?_)
    change LogOk (log ++ (s₂.log ++ [_])) _
    rw [← List.append_assoc]
    refine hok.snoc ?_ ?_ ?_
    · intro left' right type he
      cases he
    · intro L a he
      cases he
    · intro left' base' i' p' he
      cases he
      exact arrayIndex_eq_ok hindex
  | metaIndex hs ht hleft hright hgen hr ihleft ihright =>
    refine ((logKept_copied _ _ _).trans ihleft).trans (ihright.trans ?_)
    exact logKept_dropped (hH _ _ _ _ _ _ hgen) rfl
  | define hs ht hleft hparams hbody ihleft ihparams ihbody =>
    refine ((logKept_copied _ _ _).trans ihleft).trans ?_
    refine ((logKept_inner _).trans ihparams).trans ?_
    have hdropped : ∀ s v, LogKept s (s.logged (.dropped v)) :=
      fun s v => logKept_dropped (.refl _) rfl
    exact ((hdropped _ _).trans ihbody).trans (hdropped _ _)
  | ret hs ht hleft ih => exact (logKept_copied _ _ _).trans ih

/-! ## Reserved storage -/

/-- The storage of the new array literals was reserved by the parser. -/
def Reserves (reserved : List (Nat × Nat)) (s s' : ResState) : Prop :=
  ∃ more, s'.log = s.log ++ more ∧
    ∀ L a, .literal L a ∈ more → L.kind = .array → (L.off, L.count) ∈ reserved

theorem Reserves.of_log {reserved : List (Nat × Nat)} {s s' : ResState} (h : s'.log = s.log) :
    Reserves reserved s s' :=
  ⟨[], by simp [h], by simp⟩

theorem Reserves.of_event {reserved : List (Nat × Nat)} {s s' : ResState} {e : ResEvent}
    (h : s'.log = s.log ++ [e])
    (he : ∀ L a, e = .literal L a → L.kind = .array → (L.off, L.count) ∈ reserved) :
    Reserves reserved s s' :=
  ⟨[e], h, fun L a hm => he L a (List.mem_singleton.mp hm).symm⟩

theorem Reserves.trans {reserved : List (Nat × Nat)} {s t u : ResState}
    (h : Reserves reserved s t) (h' : Reserves reserved t u) : Reserves reserved s u := by
  obtain ⟨more, hl, hmore⟩ := h
  obtain ⟨more', hl', hmore'⟩ := h'
  refine ⟨more ++ more', by rw [hl', hl, List.append_assoc], fun L a hm => ?_⟩
  rcases List.mem_append.mp hm with hm | hm
  · exact hmore L a hm
  · exact hmore' L a hm

/-- `k` trees were read. -/
def ReservesTrees (k : Nat) (s s' : ResState) : Prop :=
  ∀ (reserved : List (Nat × Nat)) (ts : List (Term Cell)) (rest : List Node), ts.length = k →
    (∀ t ∈ ts, t.All (NodeOk reserved)) → s.range = encode (Term.flattenAll ts) ++ rest →
      Reserves reserved s s'

theorem reservesTrees_nil (s : ResState) : ReservesTrees 0 s s :=
  fun _ _ _ _ _ _ => .of_log rfl

/-- Behind the tree that a derivation read. -/
theorem infers_range {H : ResHost} {s s' : ResState} {v : CUPValue}
    (h : Infers H s (.value v) s') (reserved : List (Nat × Nat)) (t : Term Cell)
    (rest : List Node) (ht : t.All (NodeOk reserved)) (hs : s.range = encode t.flatten ++ rest) :
    s'.range = rest :=
  (infers_reads h reserved t rest ht hs).1

theorem ReservesTrees.cons {s s₁ s₂ : ResState} {k : Nat} (h : ReservesTrees 1 s s₁)
    (hread : ∀ (reserved : List (Nat × Nat)) (t : Term Cell) (rest : List Node),
      t.All (NodeOk reserved) → s.range = encode t.flatten ++ rest → s₁.range = rest)
    (h' : ReservesTrees k s₁ s₂) : ReservesTrees (k + 1) s s₂ := by
  intro reserved ts rest hlen hall hs
  cases ts with
  | nil => simp at hlen
  | cons t ts =>
    have ht := hall t List.mem_cons_self
    rw [Term.flattenAll_cons, encode_append, List.append_assoc] at hs
    have hfirst : Reserves reserved s s₁ :=
      h reserved [t] _ rfl (by simpa using ht) (by simpa using hs)
    have hrest := hread reserved t _ ht hs
    refine hfirst.trans (h' reserved ts rest (by simpa using hlen) (fun t' ht' => ?_) hrest)
    exact hall t' (List.mem_cons_of_mem _ ht')

/-- A node of which the first `k` operands were read. -/
theorem reservesTree_node {s s₁ s₂ s' : ResState} {c : Cell} {rest : List Node} {k : Nat}
    (hs : s.range = c.nodes ++ rest) (hc : c.payload.isSome = wide c.token) (hk : k ≤ arity c)
    (h : ReservesTrees k s₁ s₂) (hr : s₁.range = rest) (hl : s₁.log = s.log)
    (hend : ∀ (reserved : List (Nat × Nat)) (cs : List (Term Cell)) (more : List Node),
      NodeOk reserved c cs → (∀ t ∈ cs, t.All (NodeOk reserved)) →
        rest = encode (Term.flattenAll cs) ++ more → Reserves reserved s₂ s') :
    ReservesTrees 1 s s' := by
  intro reserved ts more hlen hall hrange
  obtain ⟨t, rfl⟩ := List.length_eq_one_iff.mp hlen
  rw [hs, Term.flattenAll_cons, Term.flattenAll_nil, List.append_nil] at hrange
  obtain ⟨cs, hok, hcs, hrest, -⟩ := node_of_range hc (hall t List.mem_cons_self) hrange
  have hsplit : s₁.range = encode (Term.flattenAll (cs.take k)) ++
      (encode (Term.flattenAll (cs.drop k)) ++ more) := by
    rw [← List.append_assoc, ← encode_append, ← Term.flattenAll_append, List.take_append_drop,
      hr, hrest]
  have hlen : (cs.take k).length = k := by
    rw [List.length_take, hok.operands]
    omega
  have hread := h reserved _ _ hlen (fun t ht => hcs t (List.mem_of_mem_take ht)) hsplit
  exact (Reserves.of_log hl).trans (hread.trans (hend reserved cs more hok hcs hrest))

/-- A leaf records no array. -/
theorem reservesTree_leaf {s s' : ResState} (h : ∀ reserved, Reserves reserved s s') :
    ReservesTrees 1 s s' :=
  fun reserved _ _ _ _ _ => h reserved

/-- A list node has as many entries as it counts. -/
theorem list_length {H : ResHost} {s s' : ResState} {types : List (Option TRef)}
    {values : List Nat} (h : Infers H s (.value (.list types values)) s') {loc : Loc} {n : Nat}
    {rest : List Node} (hs : s.range = .tok loc :: .value n :: rest) (ht : loc.token = .tComma) :
    types.length = n := by
  generalize hr : Inferred.value (.list types values) = r at h
  have hother : ∀ {loc' : Loc} {rest' : List Node} {token : CTType},
      s.range = .tok loc' :: rest' → loc'.token = token → token = .tComma := by
    intro loc' rest' token hs' ht'
    rw [hs] at hs'
    obtain ⟨hloc, -⟩ := List.cons.inj hs'
    cases hloc
    exact ht'.symm.trans ht
  cases h with
  | @comma _ _ loc' rest' entries hs' ht' hitems =>
    rw [hs] at hs'
    cases hs'
    cases hr
    exact List.length_map _
  | number hs' ht' => cases hother hs' ht'
  | string hs' ht' => cases hr
  | array hs' ht' => cases hother hs' ht'
  | this hs' ht' => cases hother hs' ht'
  | identifier hs' ht' => cases hother hs' ht'
  | block hs' ht' => cases hother hs' ht'
  | nil => cases hr
  | cons => cases hr
  | eq hs' ht' => cases hother hs' ht'
  | member hs' ht' => cases hother hs' ht'
  | call hs' ht' => cases hother hs' ht'
  | index hs' ht' => cases hother hs' ht'
  | metaIndex hs' ht' => cases hother hs' ht'
  | define hs' ht' => cases hother hs' ht'
  | ret hs' ht' => cases hother hs' ht'

/-- The list of an array literal. -/
theorem array_reserved {H : ResHost} {reserved : List (Nat × Nat)} {s s' : ResState} {loc : Loc}
    {i : Nat} {rest more : List Node} {types : List (Option TRef)} {values : List Nat}
    {cs : List (Term Cell)} (h : Infers H (s.copied [.tok loc, .value i] rest)
      (.value (.list types values)) s') (ht : loc.token = .nArray)
    (hok : NodeOk reserved ⟨loc, some (.value i)⟩ cs) (hall : ∀ t ∈ cs, t.All (NodeOk reserved))
    (hrest : rest = encode (Term.flattenAll cs) ++ more) : (i, types.length) ∈ reserved := by
  obtain ⟨list, off, rfl, hlist, hoff, hmem⟩ := hok.array ht
  cases hoff
  cases list with
  | node c ts =>
    have hroot := (hall (.node c ts) (by simp)).root
    obtain ⟨⟨token, col, line⟩, p⟩ := c
    obtain rfl : token = .tComma := hlist
    obtain ⟨n, rfl⟩ : ∃ n, p = some (.value n) := hroot.ok.2 (.inr rfl)
    have hcount : ts.length = n := hroot.operands
    have hhead : rest =
        .tok ⟨.tComma, col, line⟩ :: .value n :: (encode (Term.flattenAll ts) ++ more) := by
      rw [hrest, Term.flattenAll_cons, Term.flattenAll_nil, List.append_nil, Term.flatten_node,
        encode_cons]
      rfl
    rw [list_length h hhead rfl, ← hcount]
    exact hmem

/-- The number of trees of a derivation. -/
def Inferred.trees : Inferred → Nat
  | .value _ => 1
  | .items entries => entries.length

/-- The array literals of accepted trees have the storage that was reserved for them. -/
theorem infers_reserves {H : ResHost} {s s' : ResState} {r : Inferred} (h : Infers H s r s') :
    ReservesTrees r.trees s s' := by
  induction h with
  | number hs ht => exact reservesTree_leaf fun _ => .of_log rfl
  | @string s loc i off rest bytes t cup hs ht hoff hb hlt htype =>
    exact reservesTree_leaf fun _ => .of_event rfl fun L a he hk => by cases he; cases hk
  | @array s s₁ loc i rest types values data t cup hs ht hlist hlt htype ih =>
    have hc : (⟨loc, some (.value i)⟩ : Cell).token = .nArray := ht
    refine reservesTree_node (c := ⟨loc, some (.value i)⟩) (k := 1) hs (by rw [hc]; rfl)
      (by rw [arity, hc]) ih rfl rfl fun reserved cs more hok hall hrest => ?_
    refine .of_event rfl fun L a he _ => ?_
    cases he
    exact array_reserved hlist ht hok hall hrest
  | this hs ht hv => exact reservesTree_leaf fun _ => .of_log rfl
  | identifier hs ht hv => exact reservesTree_leaf fun _ => .of_log rfl
  | @block s s₁ loc rest entries hs ht hitems ih =>
    have hc : (⟨loc, some (.value entries.length)⟩ : Cell).token = .nBlock := ht
    exact reservesTree_node (c := ⟨loc, some (.value entries.length)⟩) (k := entries.length) hs
      (by rw [hc]; rfl) (by rw [arity, hc]; exact le_refl _) ih rfl rfl
      fun _ _ _ _ _ _ => .of_log rfl
  | @comma s s₁ loc rest entries hs ht hitems ih =>
    have hc : (⟨loc, some (.value entries.length)⟩ : Cell).token = .tComma := ht
    exact reservesTree_node (c := ⟨loc, some (.value entries.length)⟩) (k := entries.length) hs
      (by rw [hc]; rfl) (by rw [arity, hc]; exact le_refl _) ih rfl rfl
      fun _ _ _ _ _ _ => .of_log rfl
  | nil => exact reservesTrees_nil _
  | cons hitem hentry hrest ihitem ihrest =>
    exact ReservesTrees.cons ihitem (infers_range hitem) ihrest
  | @eq s s₁ s₂ s₃ s₄ loc rest right left v hs ht hright hleft hlog hchecks hv ihright ihleft =>
    have hc : (⟨loc, none⟩ : Cell).token = .tEq := ht
    have hl := (eqChecks_types hchecks hv).1
    have hsides : ReservesTrees 2 (s.copied [.tok loc] rest) s₂ :=
      ReservesTrees.cons ihright (infers_range hright)
        (ReservesTrees.cons ihleft (infers_range hleft) (reservesTrees_nil s₂))
    refine reservesTree_node (c := ⟨loc, none⟩) hs (by rw [hc]; rfl) (by rw [arity, hc])
      hsides rfl rfl fun _ _ _ _ _ _ => ?_
    exact .of_event (by rw [hl, hlog]; rfl) fun L a he => by cases he
  | @member s s₁ loc name str rest rest' left r f value op cup token n hs ht hleft hname hid hgen hr
      ih =>
    have hc : (⟨loc, none⟩ : Cell).token = .tDot := ht
    have hleft' : ReservesTrees 1 { s with range := rest, new := [] } s₁ := ih
    exact reservesTree_node (c := ⟨loc, none⟩) hs (by rw [hc]; rfl)
      (by rw [arity, hc]; exact Nat.le_succ 1) hleft' rfl rfl fun _ _ _ _ _ _ => .of_log rfl
  | @call s s₁ s₂ loc rest nodes left r types values f value op cup hs ht hleft hargs hgen hr ihleft
      ihargs =>
    have hc : (⟨loc, none⟩ : Cell).token = .tCall := ht
    have hargs' : ReservesTrees 1 s₁ s₂ := ihargs
    have hboth : ReservesTrees 2 { s with range := rest, new := [] } s₂ :=
      ReservesTrees.cons ihleft (infers_range hleft)
        (hargs'.cons (fun r t m h₁ h₂ => infers_range hargs r t m h₁ h₂) (reservesTrees_nil s₂))
    exact reservesTree_node (c := ⟨loc, none⟩) hs (by rw [hc]; rfl) (by rw [arity, hc])
      hboth rfl rfl fun _ _ _ _ _ _ => .of_log rfl
  | @index s s₁ s₂ loc rest left itype i base p element hs ht hleft hright hindex ihleft ihright =>
    have hc : (⟨loc, none⟩ : Cell).token = .tOsb := ht
    have hboth : ReservesTrees 2 (s.copied [.tok loc] rest) s₂ :=
      ReservesTrees.cons ihleft (infers_range hleft)
        (ReservesTrees.cons ihright (infers_range hright) (reservesTrees_nil s₂))
    exact reservesTree_node (c := ⟨loc, none⟩) hs (by rw [hc]; rfl) (by rw [arity, hc])
      hboth rfl rfl fun _ _ _ _ _ _ => .of_event rfl fun L a he => by cases he
  | @metaIndex s s₁ s₂ loc rest left right r f value op cup token n hs ht hleft hright hgen hr ihleft
      ihright =>
    have hc : (⟨loc, none⟩ : Cell).token = .tOsb := ht
    have hboth : ReservesTrees 2 (s.copied [.tok loc] rest) s₂ :=
      ReservesTrees.cons ihleft (infers_range hleft)
        (ReservesTrees.cons ihright (infers_range hright) (reservesTrees_nil s₂))
    exact reservesTree_node (c := ⟨loc, none⟩) hs (by rw [hc]; rfl) (by rw [arity, hc])
      hboth rfl rfl fun _ _ _ _ _ _ => .of_event rfl fun L a he => by cases he
  | @define s s₁ s₂ s₃ loc rest left params body hs ht hleft hparams hbody ihleft ihparams ihbody =>
    have hc : (⟨loc, none⟩ : Cell).token = .tAt := ht
    have hparams' : ReservesTrees 1 s₁ s₂ := ihparams
    have hbody' : ReservesTrees 1 s₂ s₃ := fun reserved ts more hlen hall hr =>
      (Reserves.of_event rfl fun L a he => by cases he).trans (ihbody reserved ts more hlen hall hr)
    have hall : ReservesTrees 3 (s.copied [.tok loc] rest) s₃ :=
      ReservesTrees.cons ihleft (infers_range hleft)
        (hparams'.cons (fun r t m h₁ h₂ => infers_range hparams r t m h₁ h₂)
          (hbody'.cons (fun r t m h₁ h₂ => infers_range hbody r t m h₁ h₂) (reservesTrees_nil s₃)))
    exact reservesTree_node (c := ⟨loc, none⟩) hs (by rw [hc]; rfl) (by rw [arity, hc])
      hall rfl rfl fun _ _ _ _ _ _ => .of_event rfl fun L a he => by cases he
  | @ret s s₁ loc rest t v hs ht hleft ih =>
    have hc : (⟨loc, none⟩ : Cell).token = .tReturn := ht
    exact reservesTree_node (c := ⟨loc, none⟩) (k := 1) hs (by rw [hc]; rfl) (by rw [arity, hc])
      ih rfl rfl fun _ _ _ _ _ _ => .of_log rfl

/-! ## Programs -/

/-- The modules that were accepted one after the other, and their records, with steps of the
    compiler in between that leave the types of the variables alone. -/
inductive Program (H : ResHost) (reserved : List (Nat × Nat)) :
    CUPState → List ResEvent → Prop where
  | start (s : CUPState) : Program H reserved s []
  | resolve {s : CUPState} {log : List ResEvent} {nodes : List Node} {r : ResState}
    (h : Program H reserved s log) (hwf : WellFormed reserved nodes)
    (hr : resolve H s nodes = .ok false r) (hlost : NoLostError r.log) :
    Program H reserved r.cup (log ++ r.log)
  | between {s s' : CUPState} {log : List ResEvent} (h : Program H reserved s log)
    (hk : TypesKept s s') : Program H reserved s' log

theorem Program.logOk {H : ResHost} {reserved : List (Nat × Nat)} {s : CUPState}
    {log : List ResEvent} (hH : Tame H) (h : Program H reserved s log) : LogOk log s := by
  induction h with
  | start s => exact logOk_nil s
  | resolve h hwf hr hlost ih =>
    obtain ⟨v, hv, hfailed⟩ := resolve_eq_ok hr
    have herr : v ≠ .error := fun he => Bool.false_ne_true (hfailed.mpr he)
    have hinfers := (inferTypes_derives H _).infers hv hlost herr
    exact infers_logKept hH hinfers _ (by simpa using ih)
  | between h hk ih => exact ih.mono hk

theorem Program.reserved {H : ResHost} {reserved : List (Nat × Nat)} {s : CUPState}
    {log : List ResEvent} (h : Program H reserved s log) {L : Literal} {a : Nat}
    (hm : .literal L a ∈ log) (hk : L.kind = .array) : (L.off, L.count) ∈ reserved := by
  induction h with
  | start s => simp at hm
  | resolve h hwf hr hlost ih =>
    rcases List.mem_append.mp hm with hm | hm
    · exact ih hm
    · obtain ⟨v, hv, hfailed⟩ := resolve_eq_ok hr
      have herr : v ≠ .error := fun he => Bool.false_ne_true (hfailed.mpr he)
      have hinfers := (inferTypes_derives H _).infers hv hlost herr
      rcases hwf with rfl | ⟨t, ht, rfl⟩
      · cases hv
      · obtain ⟨more, hlog, hmore⟩ :=
          infers_reserves hinfers reserved [t] [] rfl (by simpa using ht) (by simp)
        refine hmore L a ?_ hk
        rw [hlog] at hm
        simpa using hm
  | between h hk' ih => exact ih hm

/-- What a value denotes was recorded as a literal. -/
theorem Denotes.mem {log : List ResEvent} {k : Nat} {v : CUPValue} {L : Literal}
    (h : Denotes log k v L) : ∃ a, .literal L a ∈ log := by
  induction h with
  | literal hj h => exact ⟨_, List.mem_of_getElem? h⟩
  | element hj h => exact ⟨_, List.mem_of_getElem? h⟩
  | assigned hj h hright hsame ih => exact ih

/-! ## Slots -/

/-- The code behind the base in `treg`. -/
def slotCode (treg : X64Reg) (i : Nat) (wantValue : Bool) : Bytes :=
  (if i ≠ 0 then emitAluImm 0 treg (i * 8) else []) ++ if wantValue then emitLoad treg treg 0 else []

/-- For the index `i` the generator adds `8 * i` to the base, whatever computes the base. -/
def AddsSlot (i : Nat) : Prop :=
  ∀ (rec : GenExpr) (treg : X64Reg) (wantValue : Bool) (g g' : GenState) (var : Option Nat)
    (loc : Loc) (rest : List Node), single rec treg (some treg) g = .ok var g' →
    loc.token = .tNumber → g'.range = .tok loc :: .value i :: rest →
      subscriptCase rec treg wantValue g =
        .ok () { g' with range := rest, buf := g'.buf ++ slotCode treg i wantValue }

theorem addsSlot_of_le {i : Nat} (h : i ≤ int32Max / 8) : AddsSlot i := by
  intro rec treg wantValue g g' var loc rest hbase ht hrange
  have himm : (isSmallImm g'.range).filter (· ≤ int32Max / 8) = some i := by
    rw [hrange]
    have hle : i ≤ int32Max := h.trans (Nat.div_le_self _ _)
    simp [isSmallImm, ht, hle, h]
  unfold subscriptCase slotCode
  rw [Run.bind_of_ok hbase, Run.get_bind]
  dsimp only
  rw [himm]
  have hdrop : g'.range.drop 2 = rest := by rw [hrange]; rfl
  by_cases hi : i = 0
  · cases wantValue
    all_goals simp [hi, skipNodes, emit, hdrop]
  · cases wantValue
    all_goals simp [hi, skipNodes, emit, hdrop]

/-- A base that can denote the literal `L` was indexed with `i`, and the address `p` computed. -/
def IndexedLiteral (log : List ResEvent) (base i p : Nat) (L : Literal) : Prop :=
  ∃ k left, log[k]? = some (.indexed left base i p) ∧ Denotes log k left L

/-- The slot of an index lies in the storage of the literal, which was reserved for it, and it is
    the slot that the resolver and the generator use. -/
structure IndexInside (reserved : List (Nat × Nat)) (base i p : Nat) (L : Literal) : Prop where
  stored : L.kind = .array → (L.off, L.count) ∈ reserved
  inside : 8 * i + 8 ≤ L.storage
  address : p = slotAddress base i
  code : AddsSlot i

theorem indexedLiteral_inside_iff {H : ResHost} {reserved : List (Nat × Nat)} {s : CUPState}
    {log : List ResEvent} (hH : Tame H) (h : Program H reserved s log) {base i p : Nat}
    {L : Literal} (hi : IndexedLiteral log base i p L) :
    IndexInside reserved base i p L ↔ (L.kind = .string → 8 * i + 8 ≤ L.count) := by
  obtain ⟨k, left, hk, hd⟩ := hi
  have hlog := h.logOk hH
  obtain ⟨a, hm⟩ := hd.mem
  obtain ⟨hcount, ty, hty, hsize⟩ := hlog.sized hm
  obtain ⟨hp, type, ty', hleft, hty', hlt⟩ := hlog.checked (List.mem_of_getElem? hk)
  -- the base has the type of the literal, and that type has its size
  have hlen : k ≤ log.length := (List.getElem?_eq_some_iff.mp hk).1.le
  obtain rfl : type = L.type :=
    Option.some.inj (hleft.symm.trans (hlog.linked (hd.mono hlen)))
  obtain rfl : ty = ty' := Option.some.inj (hty.symm.trans hty')
  rw [hsize] at hlt
  constructor
  · intro hin hkind
    have hinside := hin.inside
    rw [Literal.storage, hkind] at hinside
    exact hinside
  · intro hstring
    refine ⟨h.reserved hm, ?_, hp, addsSlot_of_le ?_⟩
    · unfold Literal.storage
      cases hkind : L.kind with
      | array => change 8 * i + 8 ≤ 8 * L.count; omega
      | string => exact hstring hkind
    · unfold uint16Max at hcount
      have hmax : int32Max / 8 = 268435455 := rfl
      omega

/-- `x=[1,2]` and `x[1]`. -/
def arrayIndexText : Bytes :=
  ascii ['x', '=', '[', '1', ',', '2', ']', '\n', 'x', '[', '1', ']']

/-- The tree of the name `x`. -/
def xTree (line addr : Nat) : Term Cell :=
  .node ⟨⟨.tIdentifier, 1, line⟩, some (.svalue ⟨addr, ascii ['x']⟩)⟩ []

/-- The tree of `[1,2]`. -/
def pairTree : Term Cell :=
  .node ⟨⟨.nArray, 3, 1⟩, some (.value 0)⟩
    [.node ⟨⟨.tComma, 5, 1⟩, some (.value 2)⟩ [numberTree 4 1, numberTree 6 2]]

/-- The tree of the program. -/
def arrayIndexTree : Term Cell :=
  .node ⟨⟨.nBlock, 1, 1⟩, some (.value 2)⟩
    [.node ⟨⟨.tEq, 2, 1⟩, none⟩ [pairTree, xTree 1 1],
      .node ⟨⟨.tOsb, 2, 2⟩, none⟩
        [xTree 2 2, .node ⟨⟨.tNumber, 3, 2⟩, some (.value 1)⟩ []]]

theorem leaf_ok {reserved : List (Nat × Nat)} {c : Cell} (hc : c.payload.isSome = wide c.token)
    (hl : c.token ≠ .nBlock ∧ c.token ≠ .tComma) (hp : plain c.token) (hk : arity c = 0) :
    (Term.node c []).All (NodeOk reserved) :=
  .node (.of_plain ⟨hc, fun h => (h.elim hl.1 hl.2).elim⟩ hp hk.symm) (by simp)

theorem pairTree_ok : pairTree.All (NodeOk [(0, 2)]) := by
  have hlist : (Term.node ⟨⟨.tComma, 5, 1⟩, some (.value 2)⟩
      [numberTree 4 1, numberTree 6 2]).All (NodeOk [(0, 2)]) := by
    refine .node (.of_plain ⟨rfl, fun _ => ⟨2, rfl⟩⟩ rfl rfl) fun t ht => ?_
    rcases List.mem_pair.mp ht with rfl | rfl
    · exact leaf_ok rfl (by decide) rfl rfl
    · exact leaf_ok rfl (by decide) rfl rfl
  refine .node ?_ fun t ht => by rw [List.mem_singleton.mp ht]; exact hlist
  exact
    { ok := ⟨rfl, by rintro (h | h) <;> cases h⟩
      known := rfl
      operands := rfl
      call := fun h => by cases h
      array := fun _ => ⟨_, 0, rfl, rfl, rfl, by simp [Term.children, numberTree]⟩
      function := fun h => by cases h }

theorem arrayIndexTree_ok : arrayIndexTree.All (NodeOk [(0, 2)]) := by
  refine .node (.of_plain ⟨rfl, fun _ => ⟨2, rfl⟩⟩ rfl rfl) fun t ht => ?_
  rcases List.mem_pair.mp ht with rfl | rfl
  · refine .node (.of_plain ⟨rfl, by rintro (h | h) <;> cases h⟩ rfl rfl) fun t ht => ?_
    rcases List.mem_pair.mp ht with rfl | rfl
    · exact pairTree_ok
    · exact leaf_ok rfl (by decide) rfl rfl
  · refine .node (.of_plain ⟨rfl, by rintro (h | h) <;> cases h⟩ rfl rfl) fun t ht => ?_
    rcases List.mem_pair.mp ht with rfl | rfl
    · exact leaf_ok rfl (by decide) rfl rfl
    · exact leaf_ok rfl (by decide) rfl rfl

theorem program_arrayIndex : Program bareResHost [(0, 2)] (resolved arrayIndexText).cup
    (resolved arrayIndexText).log := by
  have hnodes : parsedNodes arrayIndexText = encode arrayIndexTree.flatten := by decide +kernel
  have hwf : WellFormed [(0, 2)] (parsedNodes arrayIndexText) :=
    .inr ⟨arrayIndexTree, arrayIndexTree_ok, hnodes⟩
  have hresolve : resolve bareResHost (parsedState arrayIndexText) (parsedNodes arrayIndexText) =
      .ok false (resolved arrayIndexText) := by decide +kernel
  have hlost : NoLostError (resolved arrayIndexText).log := by
    unfold NoLostError
    decide +kernel
  rw [← List.nil_append (resolved arrayIndexText).log]
  exact .resolve (.start _) hwf hresolve hlost

/-- `x="ab"` and `x[1]`. -/
def stringIndexText : Bytes :=
  ascii ['x', '=', '"', 'a', 'b', '"', '\n', 'x', '[', '1', ']']

end Cup
