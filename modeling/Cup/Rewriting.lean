/-
  What the resolver writes. From one well-formed tree it makes one tree (`Resolved`): nodes are
  kept, a member access and an answered index become a constant, and a call becomes a constant
  or the call of an address with the rewritten arguments. The result has no `T_DOT` and every
  node has its operands behind it (`CodeOk`).

  That holds of the accepted runs. A definition also accepts when its parameter list or its body
  is an error, and a meta index when the index is one; then the rest of that tree is still to be
  read (`not_consumed_lessIndex`).
-/
import Mathlib.Data.List.Basic
import Cup.Inference
import Cup.Stream

namespace Cup

open Lib (Stop Run Term)

/-! ## Resolved trees -/

/-- The tokens that the resolver keeps. -/
def keptToken : CTType → Bool
  | .nBlock | .tComma | .nArray | .tNumber | .tString | .tThis | .tIdentifier | .tEq | .tOsb
  | .tAt | .tReturn => true
  | _ => false

/-- The node of a constant in the place of `loc`. -/
def constantCell (loc : Loc) (token : CTType) (n : Nat) : Cell :=
  ⟨{ loc with token := token }, some (.value n)⟩

/-- The tree `u` stands for the tree `t`. -/
inductive Resolved : Term Cell → Term Cell → Prop where
  | kept {c : Cell} {ts us : List (Term Cell)} (hc : keptToken c.token)
    (hlen : us.length = ts.length)
    (h : ∀ (i : Nat) t u, ts[i]? = some t → us[i]? = some u → Resolved t u) :
    Resolved (.node c ts) (.node c us)
  | constant {c : Cell} {ts : List (Term Cell)} {token : CTType} {n : Nat}
    (hc : c.token = .tDot ∨ c.token = .tCall ∨ c.token = .tOsb)
    (ht : token = .tNumber ∨ token = .nAddress) :
    Resolved (.node c ts) (.node (constantCell c.loc token n) [])
  | called {c : Cell} {f args args' : Term Cell} {n : Nat} (hc : c.token = .tCall)
    (h : Resolved args args') :
    Resolved (.node c [f, args])
      (.node c [.node (constantCell c.loc .tNumber n) [], args'])

/-- A node of a resolved tree. -/
structure CodeOk (c : Cell) (cs : List (Term Cell)) : Prop where
  token : keptToken c.token ∨ c.token = .tCall ∨ c.token = .nAddress
  payload : c.payload.isSome = (wide c.token || c.token = .nAddress)
  counted : (c.token = .nBlock ∨ c.token = .tComma) → c.payload = some (.value cs.length)
  operands : cs.length = arity c
  call : c.token = .tCall → ∃ callee args, cs = [callee, args] ∧ args.label.token = .tComma
  array : c.token = .nArray → ∃ list, cs = [list] ∧ list.label.token = .tComma
  function : c.token = .tAt → ∃ name args body, cs = [name, args, body] ∧
    name.label.token = .tIdentifier ∧ args.label.token = .tComma

/-- A list, a block or a name is kept with its label. -/
theorem Resolved.label {t u : Term Cell} (h : Resolved t u)
    (ht : t.label.token ≠ .tDot ∧ t.label.token ≠ .tCall ∧ t.label.token ≠ .tOsb) :
    u.label = t.label := by
  cases h with
  | kept hc hlen h => rfl
  | constant hc hk =>
    obtain ⟨h₁, h₂, h₃⟩ := ht
    rcases hc with hc | hc | hc
    · exact absurd hc h₁
    · exact absurd hc h₂
    · exact absurd hc h₃
  | called hc h => exact absurd hc ht.2.1

theorem codeOk_constant (loc : Loc) {token : CTType} (n : Nat)
    (ht : token = .tNumber ∨ token = .nAddress) : CodeOk (constantCell loc token n) [] := by
  have hcell : (constantCell loc token n).token = token := rfl
  rcases ht with rfl | rfl
  all_goals
    exact
      { token := by rw [hcell]; decide
        payload := by rw [hcell]; rfl
        counted := fun h => by rw [hcell] at h; simp at h
        operands := by rw [arity, hcell]; rfl
        call := fun h => by rw [hcell] at h; cases h
        array := fun h => by rw [hcell] at h; cases h
        function := fun h => by rw [hcell] at h; cases h }

/-- Every tree of the second list stands for one of the first. -/
theorem exists_of_mem {ts us : List (Term Cell)} (hlen : us.length = ts.length) {u : Term Cell}
    (hu : u ∈ us) : ∃ (i : Nat) (t : Term Cell), ts[i]? = some t ∧ us[i]? = some u := by
  obtain ⟨i, hi⟩ := List.mem_iff_getElem?.mp hu
  have hlt : i < ts.length := hlen ▸ (List.getElem?_eq_some_iff.mp hi).1
  exact ⟨i, ts[i], List.getElem?_eq_getElem hlt, hi⟩

theorem eq_one_of_length {us : List (Term Cell)} (h : us.length = 1) : ∃ a, us = [a] :=
  List.length_eq_one_iff.mp h

/-- What stands for a well-formed tree is a tree of resolved nodes. -/
theorem Resolved.codeOk {reserved : List (Nat × Nat)} {t u : Term Cell} (h : Resolved t u)
    (ht : t.All (NodeOk reserved)) : u.All CodeOk := by
  induction h with
  | @kept c ts us hc hlen h ih =>
    have hroot := ht.root
    refine .node ?_ fun u hu => ?_
    · have hlabel : ∀ {i : Nat} {t u}, ts[i]? = some t → us[i]? = some u →
          (t.label.token = .tComma ∨ t.label.token = .tIdentifier) → u.label = t.label := by
        intro i t u hti hui hor
        refine (h i t u hti hui).label ?_
        rcases hor with hor | hor <;> rw [hor] <;> decide
      exact
        { token := .inl hc
          payload := by
            rw [hroot.ok.1]
            have hne : c.token ≠ .nAddress := fun he => by rw [he] at hc; cases hc
            simp [hne]
          counted := fun h => by
            obtain ⟨n, hn⟩ := hroot.ok.2 h
            have hcount := hroot.operands
            rw [hlen, hcount, arity]
            rcases h with h | h <;> rw [h, hn] <;> rfl
          operands := by rw [hlen, hroot.operands]
          call := fun he => by rw [he] at hc; cases hc
          array := fun he => by
            obtain ⟨list, off, rfl, hlist, -, -⟩ := hroot.array he
            obtain ⟨list', rfl⟩ := eq_one_of_length hlen
            exact ⟨list', rfl, by rw [hlabel (i := 0) rfl rfl (.inl hlist)]; exact hlist⟩
          function := fun he => by
            obtain ⟨name, args, body, rfl, hname, hargs⟩ := hroot.function he
            obtain ⟨name', args', body', rfl⟩ := List.length_eq_three.mp hlen
            refine ⟨name', args', body', rfl, ?_, ?_⟩
            · rw [hlabel (i := 0) rfl rfl (.inr hname)]
              exact hname
            · rw [hlabel (i := 1) rfl rfl (.inl hargs)]
              exact hargs }
    · obtain ⟨i, t, hti, hui⟩ := exists_of_mem hlen hu
      exact ih i t u hti hui (ht.child (List.mem_of_getElem? hti))
  | constant hc hk => exact .node (codeOk_constant _ _ hk) (by simp)
  | @called c f args args' n hc h ih =>
    have hroot := ht.root
    obtain ⟨f', list, hcs, hlist⟩ := hroot.call hc
    obtain ⟨rfl, rfl⟩ : f = f' ∧ args = list := by simpa using hcs
    have hlabel : args'.label = args.label := h.label (by rw [hlist]; decide)
    refine .node ?_ fun u hu => ?_
    · exact
        { token := .inr (.inl hc)
          payload := by
            rw [hroot.ok.1, hc]
            rfl
          counted := fun h => by rw [hc] at h; simp at h
          operands := hroot.operands
          call := fun _ => ⟨_, args', rfl, by rw [hlabel]; exact hlist⟩
          array := fun he => by rw [hc] at he; cases he
          function := fun he => by rw [hc] at he; cases he }
    · rcases List.mem_cons.mp hu with rfl | hu
      · exact .node (codeOk_constant _ _ (.inl rfl)) (by simp)
      · rw [List.mem_singleton.mp hu]
        exact ih (ht.child (by simp))

/-! ## Reading trees -/

/-- From `s` to `s'` one tree was read, and one that stands for it was written. -/
def ReadsTree (s s' : ResState) : Prop :=
  ∀ (reserved : List (Nat × Nat)) (t : Term Cell) (rest : List Node), t.All (NodeOk reserved) →
    s.range = encode t.flatten ++ rest →
      s'.range = rest ∧ ∃ u, s'.new = s.new ++ encode u.flatten ∧ Resolved t u

/-- `k` trees were read, and as many written. -/
def ReadsTrees (k : Nat) (s s' : ResState) : Prop :=
  ∀ (reserved : List (Nat × Nat)) (ts : List (Term Cell)) (rest : List Node), ts.length = k →
    (∀ t ∈ ts, t.All (NodeOk reserved)) → s.range = encode (Term.flattenAll ts) ++ rest →
      s'.range = rest ∧ ∃ us, us.length = ts.length ∧
        s'.new = s.new ++ encode (Term.flattenAll us) ∧
          ∀ (i : Nat) t u, ts[i]? = some t → us[i]? = some u → Resolved t u

/-- The nodes of a cell are read in one way. -/
theorem Cell.nodes_append_inj {c d : Cell} (hc : c.payload.isSome = wide c.token)
    (hd : d.payload.isSome = wide d.token) {x y : List Node} (h : c.nodes ++ x = d.nodes ++ y) :
    c = d ∧ x = y := by
  obtain ⟨loc, p⟩ := c
  obtain ⟨loc', q⟩ := d
  simp only [Cell.nodes, List.cons_append, List.cons.injEq, Node.tok.injEq] at h
  obtain ⟨rfl, h⟩ := h
  cases p with
  | none =>
    cases q with
    | none => exact ⟨rfl, h⟩
    | some b => exact absurd (hc.trans hd.symm) (by simp)
  | some a =>
    cases q with
    | none => exact absurd (hc.trans hd.symm) (by simp)
    | some b =>
      simp only [Option.toList, List.singleton_append, List.cons.injEq] at h
      obtain ⟨rfl, h⟩ := h
      exact ⟨rfl, h⟩

theorem readsTrees_nil (s : ResState) : ReadsTrees 0 s s := by
  intro reserved ts rest hlen _ hs
  obtain rfl := List.eq_nil_of_length_eq_zero hlen
  refine ⟨by simpa using hs, [], rfl, by simp, fun i t u ht => ?_⟩
  simp at ht

theorem ReadsTree.cons {s s₁ s₂ : ResState} {k : Nat} (h : ReadsTree s s₁)
    (h' : ReadsTrees k s₁ s₂) : ReadsTrees (k + 1) s s₂ := by
  intro reserved ts rest hlen hall hs
  cases ts with
  | nil => simp at hlen
  | cons t ts =>
    rw [Term.flattenAll_cons, encode_append, List.append_assoc] at hs
    obtain ⟨hr₁, u, hn₁, hu⟩ := h reserved t _ (hall t List.mem_cons_self) hs
    obtain ⟨hr₂, us, hlen', hn₂, hus⟩ := h' reserved ts rest (by simpa using hlen)
      (fun t' ht' => hall t' (List.mem_cons_of_mem _ ht')) hr₁
    refine ⟨hr₂, u :: us, by simp [hlen'], ?_, fun i t' u' ht hu' => ?_⟩
    · rw [hn₂, hn₁, Term.flattenAll_cons, encode_append, List.append_assoc]
    · cases i with
      | zero =>
        cases ht
        cases hu'
        exact hu
      | succ i => exact hus i t' u' ht hu'

/-- The tree at a cell that was read. -/
theorem node_of_range {reserved : List (Nat × Nat)} {t : Term Cell} {c : Cell}
    {rest more : List Node} (hc : c.payload.isSome = wide c.token) (ht : t.All (NodeOk reserved))
    (h : c.nodes ++ rest = encode t.flatten ++ more) :
    ∃ ts, NodeOk reserved c ts ∧ (∀ t ∈ ts, t.All (NodeOk reserved)) ∧
      rest = encode (Term.flattenAll ts) ++ more ∧ t = .node c ts := by
  cases t with
  | node d ts =>
    rw [Term.flatten_node, encode_cons, List.append_assoc] at h
    obtain ⟨rfl, hrest⟩ := Cell.nodes_append_inj hc ht.root.ok.1 h
    exact ⟨ts, ht.root, fun t ht' => ht.child ht', hrest, rfl⟩

/-- A node whose cell was read. -/
theorem readsTree_node {s s' : ResState} {c : Cell} {rest : List Node}
    (hs : s.range = c.nodes ++ rest) (hc : c.payload.isSome = wide c.token)
    (h : ∀ (reserved : List (Nat × Nat)) (ts : List (Term Cell)) (more : List Node),
      NodeOk reserved c ts → (∀ t ∈ ts, t.All (NodeOk reserved)) →
        rest = encode (Term.flattenAll ts) ++ more →
          s'.range = more ∧ ∃ u, s'.new = s.new ++ encode u.flatten ∧ Resolved (.node c ts) u) :
    ReadsTree s s' := by
  intro reserved t more ht hr
  rw [hs] at hr
  obtain ⟨ts, hok, hall, hrest, rfl⟩ := node_of_range hc ht hr
  exact h reserved ts more hok hall hrest

/-- A node that is kept, with `k` trees behind it. -/
theorem readsTree_kept {s s₁ s' : ResState} {c : Cell} {rest : List Node} {k : Nat}
    (hs : s.range = c.nodes ++ rest) (hc : c.payload.isSome = wide c.token)
    (hkept : keptToken c.token) (hk : arity c = k)
    (h : ReadsTrees k (s.copied c.nodes rest) s₁) (hr : s'.range = s₁.range)
    (hn : s'.new = s₁.new) : ReadsTree s s' := by
  refine readsTree_node hs hc fun reserved ts more hok hall hrest => ?_
  obtain ⟨hr₁, us, hlen, hn₁, hus⟩ := h reserved ts more (hok.operands.trans hk) hall hrest
  refine ⟨hr.trans hr₁, .node c us, ?_, .kept hkept hlen hus⟩
  rw [hn, hn₁, Term.flatten_node, encode_cons, ← List.append_assoc]
  rfl

/-- A node that a constant takes the place of. -/
theorem encode_constantCell (loc : Loc) (token : CTType) (n : Nat) :
    encode (Term.node (constantCell loc token n) []).flatten =
      [.tok { loc with token := token }, .value n] := by
  rw [Term.flatten_node, Term.flattenAll_nil]
  rfl

theorem constant_token {r : CUPValue} {token : CTType} {n : Nat}
    (h : r.constant = some (token, n)) : token = .tNumber ∨ token = .nAddress := by
  cases r with
  | value t v =>
    cases h
    exact .inl rfl
  | address t p =>
    cases h
    exact .inr rfl
  | _ => cases h

/-- An accepted assignment reads and writes nothing. -/
theorem eqChecks_nodes {left right v : CUPValue} {s s' : ResState}
    (h : eqChecks left right s = .ok v s') (hv : v ≠ .error) :
    s'.range = s.range ∧ s'.new = s.new := by
  obtain ⟨-, ⟨target, name, t, var, -, -, -, hset⟩ | ⟨rfl, -⟩⟩ :=
    assignType_eq_ok (eqChecks_eq_ok h hv) hv
  · cases hset
    exact ⟨rfl, rfl⟩
  · exact ⟨rfl, rfl⟩

/-- What a derivation reads. -/
def Inferred.Reads : Inferred → ResState → ResState → Prop
  | .value _ => ReadsTree
  | .items entries => ReadsTrees entries.length

/-- A leaf that is kept. -/
theorem readsTree_leaf {s s' : ResState} {c : Cell} {rest : List Node}
    (hs : s.range = c.nodes ++ rest) (hc : c.payload.isSome = wide c.token)
    (hkept : keptToken c.token) (hk : arity c = 0) (hr : s'.range = rest)
    (hn : s'.new = s.new ++ c.nodes) : ReadsTree s s' :=
  readsTree_kept hs hc hkept hk (readsTrees_nil _) hr hn

theorem readsTree_member {s s₁ : ResState} {loc name : Loc} {str : CStr} {rest rest' : List Node}
    {token : CTType} {n : Nat} {cup : CUPState} (hs : s.range = .tok loc :: rest)
    (ht : loc.token = .tDot) (hname : s₁.range = .tok name :: .svalue str :: rest')
    (hid : name.token = .tIdentifier) (hk : token = .tNumber ∨ token = .nAddress)
    (h : ReadsTree { s with range := rest, new := [] } s₁) :
    ReadsTree s
      { s₁ with
        cup := cup
        range := rest'
        new := s.new ++ [.tok { loc with token := token }, .value n] } := by
  have hc : (⟨loc, none⟩ : Cell).token = .tDot := ht
  refine readsTree_node (c := ⟨loc, none⟩) hs (by rw [hc]; rfl) ?_
  intro reserved ts more hok hall hrest
  have hlen : ts.length = 2 := by rw [hok.operands, arity, hc]
  obtain ⟨left, member, rfl⟩ := List.length_eq_two.mp hlen
  simp only [Term.flattenAll_cons, Term.flattenAll_nil, List.append_nil, encode_append,
    List.append_assoc] at hrest
  obtain ⟨hr₁, -⟩ := h reserved left _ (hall left (by simp)) hrest
  -- the member name is a leaf
  cases member with
  | node d ds =>
    have hmember := hall (.node d ds) (by simp)
    have hd : (⟨name, some (.svalue str)⟩ : Cell).token = .tIdentifier := hid
    rw [hname, Term.flatten_node, encode_cons, List.append_assoc] at hr₁
    obtain ⟨rfl, hmore⟩ := Cell.nodes_append_inj (c := ⟨name, some (.svalue str)⟩)
      (by rw [hd]; rfl) hmember.root.ok.1 hr₁
    have hds : ds = [] := List.eq_nil_of_length_eq_zero (by
      rw [hmember.root.operands, arity, hd])
    subst hds
    refine ⟨by simpa using hmore, .node (constantCell loc token n) [], ?_, ?_⟩
    · rw [encode_constantCell]
    · exact .constant (.inl hc) hk

theorem readsTree_call {s s₁ s₂ : ResState} {loc : Loc} {rest nodes : List Node} {r : CUPValue}
    {cup : CUPState} (hs : s.range = .tok loc :: rest) (ht : loc.token = .tCall)
    (hr : r.called loc s₂.new = some nodes)
    (hleft : ReadsTree { s with range := rest, new := [] } s₁)
    (hargs : ReadsTree { s₁ with new := [] } s₂) :
    ReadsTree s { s₂ with cup := cup, new := s.new ++ nodes } := by
  have hc : (⟨loc, none⟩ : Cell).token = .tCall := ht
  refine readsTree_node (c := ⟨loc, none⟩) hs (by rw [hc]; rfl) ?_
  intro reserved ts more hok hall hrest
  have hlen : ts.length = 2 := by rw [hok.operands, arity, hc]
  obtain ⟨left, args, rfl⟩ := List.length_eq_two.mp hlen
  simp only [Term.flattenAll_cons, Term.flattenAll_nil, List.append_nil, encode_append,
    List.append_assoc] at hrest
  obtain ⟨hr₁, -⟩ := hleft reserved left _ (hall left (by simp)) hrest
  obtain ⟨hr₂, u, hn₂, hu⟩ := hargs reserved args more (hall args (by simp)) hr₁
  cases r with
  | function type value =>
    cases hr
    refine ⟨hr₂, .node ⟨loc, none⟩ [.node (constantCell loc .tNumber value) [], u], ?_,
      .called hc hu⟩
    rw [hn₂]
    simp [Cell.nodes, constantCell]
  | value type n =>
    cases hr
    refine ⟨hr₂, .node (constantCell loc .tNumber n) [], ?_, .constant (.inr (.inl hc)) (.inl rfl)⟩
    rw [encode_constantCell]
  | _ => cases hr

theorem readsTree_metaIndex {s s₁ s₂ s' : ResState} {loc : Loc} {rest : List Node}
    {token : CTType} {n : Nat} (hs : s.range = .tok loc :: rest) (ht : loc.token = .tOsb)
    (hk : token = .tNumber ∨ token = .nAddress)
    (hleft : ReadsTree (s.copied [.tok loc] rest) s₁) (hright : ReadsTree s₁ s₂)
    (hr : s'.range = s₂.range)
    (hn : s'.new = s₂.new.take s.new.length ++
      [.tok { loc with token := token }, .value n]) : ReadsTree s s' := by
  have hc : (⟨loc, none⟩ : Cell).token = .tOsb := ht
  refine readsTree_node (c := ⟨loc, none⟩) hs (by rw [hc]; rfl) ?_
  intro reserved ts more hok hall hrest
  have hlen : ts.length = 2 := by rw [hok.operands, arity, hc]
  obtain ⟨hr₂, us, -, hn₂, -⟩ :=
    (hleft.cons (hright.cons (readsTrees_nil s₂))) reserved ts more hlen hall hrest
  refine ⟨hr.trans hr₂, .node (constantCell loc token n) [], ?_, .constant (.inr (.inr hc)) hk⟩
  -- what was written for the base and the index is cut off
  have hcopied : (s.copied [.tok loc] rest).new = s.new ++ [.tok loc] := rfl
  rw [hn, hn₂, hcopied, encode_constantCell, List.append_assoc, List.take_left]

/-- No well-formed tree starts with an unknown token. -/
theorem readsTree_unknown {s s' : ResState} {loc : Loc} {rest : List Node}
    (hs : s.range = .tok loc :: rest) (ht : inStream loc.token = false) : ReadsTree s s' := by
  intro reserved t more hall hr
  cases t with
  | node c ts =>
    rw [hs, Term.flatten_node, encode_cons, Cell.nodes, List.cons_append, List.cons_append] at hr
    obtain ⟨hloc, -⟩ := List.cons.inj hr
    cases hloc
    have hknown := hall.root.known
    rw [Cell.token, ht] at hknown
    cases hknown

/-- A derivation reads its trees, and writes trees that stand for them. -/
theorem infers_reads {H : ResHost} {s s' : ResState} {r : Inferred} (h : Infers H s r s') :
    r.Reads s s' := by
  induction h with
  | @number s loc n rest hs ht =>
    have hc : (⟨loc, some (.value n)⟩ : Cell).token = .tNumber := ht
    exact readsTree_leaf (c := ⟨loc, some (.value n)⟩) hs (by rw [hc]; rfl) (by rw [hc]; rfl)
      (by rw [arity, hc]) rfl rfl
  | @string s loc i off rest bytes t cup hs ht hoff hb hlt htype =>
    rcases ht with ht | ht
    · have hc : (⟨loc, some (.value i)⟩ : Cell).token = .tString := ht
      exact readsTree_leaf (c := ⟨loc, some (.value i)⟩) hs (by rw [hc]; rfl) (by rw [hc]; rfl)
        (by rw [arity, hc]) rfl rfl
    · exact readsTree_unknown hs (by rw [ht]; rfl)
  | @array s s₁ loc i rest types values data t cup hs ht hlist hlt htype ih =>
    have hc : (⟨loc, some (.value i)⟩ : Cell).token = .nArray := ht
    exact readsTree_kept (c := ⟨loc, some (.value i)⟩) hs (by rw [hc]; rfl) (by rw [hc]; rfl)
      (by rw [arity, hc]) (ReadsTree.cons ih (readsTrees_nil s₁)) rfl rfl
  | @this s loc rest v hs ht hv =>
    have hc : (⟨loc, none⟩ : Cell).token = .tThis := ht
    exact readsTree_leaf (c := ⟨loc, none⟩) hs (by rw [hc]; rfl) (by rw [hc]; rfl)
      (by rw [arity, hc]) rfl rfl
  | @identifier s loc name rest v hs ht hv =>
    have hc : (⟨loc, some (.svalue name)⟩ : Cell).token = .tIdentifier := ht
    exact readsTree_leaf (c := ⟨loc, some (.svalue name)⟩) hs (by rw [hc]; rfl) (by rw [hc]; rfl)
      (by rw [arity, hc]) rfl rfl
  | @block s s₁ loc rest entries hs ht hitems ih =>
    have hc : (⟨loc, some (.value entries.length)⟩ : Cell).token = .nBlock := ht
    exact readsTree_kept (c := ⟨loc, some (.value entries.length)⟩) hs (by rw [hc]; rfl)
      (by rw [hc]; rfl) (by rw [arity, hc]; rfl) (k := entries.length) ih rfl rfl
  | @comma s s₁ loc rest entries hs ht hitems ih =>
    have hc : (⟨loc, some (.value entries.length)⟩ : Cell).token = .tComma := ht
    exact readsTree_kept (c := ⟨loc, some (.value entries.length)⟩) hs (by rw [hc]; rfl)
      (by rw [hc]; rfl) (by rw [arity, hc]; rfl) (k := entries.length) ih rfl rfl
  | nil => exact readsTrees_nil _
  | cons hitem hentry hrest ihitem ihrest => exact ReadsTree.cons ihitem ihrest
  | @eq s s₁ s₂ s₃ s₄ loc rest right left v hs ht hright hleft hlog hchecks hv ihright ihleft =>
    have hc : (⟨loc, none⟩ : Cell).token = .tEq := ht
    obtain ⟨hr, hn⟩ := eqChecks_nodes hchecks hv
    rw [hlog] at hr hn
    exact readsTree_kept (c := ⟨loc, none⟩) hs (by rw [hc]; rfl) (by rw [hc]; rfl)
      (by rw [arity, hc]) (ReadsTree.cons ihright (ReadsTree.cons ihleft (readsTrees_nil s₂))) hr hn
  | member hs ht hleft hname hid hgen hr ih =>
    exact readsTree_member hs ht hname hid (constant_token hr) ih
  | call hs ht hleft hargs hgen hr ihleft ihargs => exact readsTree_call hs ht hr ihleft ihargs
  | @index s s₁ s₂ loc rest left itype i base p element hs ht hleft hright hindex ihleft ihright =>
    have hc : (⟨loc, none⟩ : Cell).token = .tOsb := ht
    exact readsTree_kept (c := ⟨loc, none⟩) hs (by rw [hc]; rfl) (by rw [hc]; rfl)
      (by rw [arity, hc]) (ReadsTree.cons ihleft (ReadsTree.cons ihright (readsTrees_nil s₂))) rfl rfl
  | metaIndex hs ht hleft hright hgen hr ihleft ihright =>
    exact readsTree_metaIndex hs ht (constant_token hr) ihleft ihright rfl rfl
  | @define s s₁ s₂ s₃ loc rest left params body hs ht hleft hparams hbody ihleft ihparams ihbody =>
    have hc : (⟨loc, none⟩ : Cell).token = .tAt := ht
    have hinner : ReadsTree s₁ s₂ := ihparams
    have hlogged : ReadsTree s₂ s₃ := ihbody
    exact readsTree_kept (c := ⟨loc, none⟩) hs (by rw [hc]; rfl) (by rw [hc]; rfl)
      (by rw [arity, hc])
      (ReadsTree.cons ihleft (hinner.cons (hlogged.cons (readsTrees_nil s₃)))) rfl rfl
  | @ret s s₁ loc rest t v hs ht hleft ih =>
    have hc : (⟨loc, none⟩ : Cell).token = .tReturn := ht
    exact readsTree_kept (c := ⟨loc, none⟩) hs (by rw [hc]; rfl) (by rw [hc]; rfl)
      (by rw [arity, hc]) (ReadsTree.cons ih (readsTrees_nil s₁)) rfl rfl

end Cup
