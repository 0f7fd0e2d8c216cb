/-
  How the generator reads a resolved stream. The nodes that are left are always the nodes of
  whole trees (`Stock`), at least as many as are still to be read: `codegen_expr` takes one and
  leaves the ones it counts. So it never reads behind the end of the stream, and it meets no
  `T_DOT` (`codegen_faults`).
-/
import Cup.Rewriting
import Cup.Typing

namespace Cup

open Lib (Stop Run Term)

/-! ## Code that reads nodes -/

/-- From the nodes `l`, `x` goes to nodes in `Q`, and no read of the stream fails. -/
def Takes {α : Type} (l : List Node) (x : Gen α) (Q : α → List Node → Prop) : Prop :=
  ∀ s, s.range = l → x.Sat s (fun a s' => s'.faults = s.faults ∧ Q a s'.range)
    fun _ s' => s'.faults = s.faults

/-- `x` touches neither the stream nor the record of its faults. -/
abbrev Still {α : Type} (x : Gen α) : Prop :=
  x.Keeps (fun s => (s.range, s.faults)) fun _ => True

section Takes

variable {α β : Type} {l : List Node} {Q : α → List Node → Prop} {R : β → List Node → Prop}

theorem Takes.mono {x : Gen α} (h : Takes l x Q) {Q' : α → List Node → Prop}
    (hq : ∀ a l', Q a l' → Q' a l') : Takes l x Q' :=
  fun s hs => Run.sat_mono (h s hs) (fun _ _ h => ⟨h.1, hq _ _ h.2⟩) fun _ _ h => h

theorem takes_pure {a : α} (h : Q a l) : Takes l (pure a) Q := by
  rintro s rfl
  exact ⟨rfl, h⟩

theorem takes_stop (e : Stop) : Takes l (Run.stop e : Gen α) Q := fun _ _ => rfl

theorem takes_exit (n : Nat) : Takes l (genExit n : Gen α) Q := fun _ _ => rfl

theorem takes_bind {x : Gen α} {f : α → Gen β} (hx : Takes l x Q)
    (hf : ∀ a l', Q a l' → Takes l' (f a) R) : Takes l (x >>= f) R := by
  intro s hs
  rw [Run.sat_bind]
  refine Run.sat_mono (hx s hs) ?_ fun _ _ h => h
  rintro a s' ⟨hfaults, hq⟩
  refine Run.sat_mono (hf a _ hq s' rfl) ?_ fun _ _ h => h.trans hfaults
  exact fun _ _ h => ⟨h.1.trans hfaults, h.2⟩

theorem takes_get {f : GenState → Gen β} (hf : ∀ s, s.range = l → Takes l (f s) R) :
    Takes l (Run.get >>= f) R :=
  fun s hs => hf s hs s hs

theorem Still.takes {x : Gen α} (h : Still x) : Takes l x fun _ l' => l' = l := by
  rintro s rfl
  refine Run.sat_mono (h s) (fun _ s' h => ?_) fun _ s' h => (congrArg Prod.snd h.1 : _)
  exact ⟨(congrArg Prod.snd h : _), (congrArg Prod.fst h : _)⟩

/-- In front of code that reads, code that does not. -/
theorem takes_still {x : Gen α} {f : α → Gen β} (hx : Still x) (hf : ∀ a, Takes l (f a) R) :
    Takes l (x >>= f) R :=
  takes_bind hx.takes fun a _ h => h ▸ hf a

/-- Behind code that reads, code that does not. -/
theorem Takes.still {x : Gen α} {f : α → Gen β} (hx : Takes l x Q) (hf : ∀ a, Still (f a))
    (hq : ∀ a b l', Q a l' → R b l') : Takes l (x >>= f) R :=
  takes_bind hx fun a l' h => (hf a).takes.mono fun b _ he => he ▸ hq a b l' h

end Takes

/-! ## Code that does not read -/

section Still

variable {α β : Type}

theorem still_pure (a : α) : Still (pure a : Gen α) := Run.keeps_pure a

theorem still_get : Still (Run.get : Gen GenState) := Run.keeps_get

theorem still_stop (e : Stop) : Still (Run.stop e : Gen α) := Run.keeps_stop trivial

theorem still_exit (n : Nat) : Still (genExit n : Gen α) := still_stop _

theorem still_lift (x : Except Stop α) : Still (Run.lift x : Gen α) :=
  Run.keeps_lift fun _ _ => trivial

theorem still_modify {g : GenState → GenState}
    (h : ∀ s, (g s).range = s.range ∧ (g s).faults = s.faults) : Still (Run.modify g) :=
  Run.keeps_modify fun s => Prod.ext (h s).1 (h s).2

theorem still_emit (bytes : Bytes) : Still (emit bytes) := still_modify fun _ => ⟨rfl, rfl⟩

theorem still_regPick (pool : List X64Reg) (avoid : X64Reg) : Still (regPick pool avoid) := by
  intro s
  unfold regPick
  rw [Run.sat_bind, Run.sat_get]
  dsimp only
  split
  · exact ⟨rfl, trivial⟩
  · exact rfl

theorem still_pickScratch (avoid : X64Reg) : Still (pickScratch avoid) := still_regPick _ _

theorem still_pickSaved (avoid : X64Reg) : Still (pickSaved avoid) :=
  Run.keeps_bind (still_regPick _ _) fun _ =>
    Run.keeps_bind (still_modify fun _ => ⟨rfl, rfl⟩) fun _ => still_pure _

theorem still_regFree (r : X64Reg) : Still (regFree r) := still_modify fun _ => ⟨rfl, rfl⟩

theorem still_emitPush (r : X64Reg) : Still (emitPush r) :=
  Run.keeps_bind (still_emit _) fun _ => still_modify fun _ => ⟨rfl, rfl⟩

theorem still_emitPop (r : X64Reg) : Still (emitPop r) :=
  Run.keeps_bind (still_emit _) fun _ => still_modify fun _ => ⟨rfl, rfl⟩

theorem still_emitJmpRel32 : Still emitJmpRel32 :=
  Run.keeps_bind (still_emit _) fun _ => Run.keeps_bind still_get fun _ =>
    Run.keeps_bind (still_emit _) fun _ => still_pure _

theorem still_patchBytes (pos : Nat) (bytes : Bytes) : Still (patchBytes pos bytes) := by
  intro s
  unfold patchBytes
  rw [Run.sat_bind, Run.sat_get]
  dsimp only
  split
  · exact rfl
  · exact ⟨rfl, trivial⟩

theorem still_patchRel (patch target : Nat) : Still (patchRel patch target) := by
  unfold patchRel
  dsimp only
  split
  · exact still_exit _
  · exact still_patchBytes _ _

theorem still_lookupVar (name : Bytes) : Still (lookupVar name) := by
  refine Run.keeps_bind still_get fun s => Run.keeps_bind (still_lift _) fun v => ?_
  cases v with
  | none => exact still_exit _
  | some v => exact still_pure v

theorem still_leafAddress (L : Layout) : Still (leafAddress L) := by
  refine Run.keeps_bind still_get fun s => ?_
  split
  · exact still_pure _
  · split
    · split
      · exact still_pure _
      · exact still_pure _
      · exact still_stop _
    · split
      · exact still_pure _
      · refine Run.keeps_bind (still_lookupVar _) fun v => ?_
        exact Run.keeps_bind (still_modify fun _ => ⟨rfl, rfl⟩) fun _ => still_pure _
      · exact still_stop _
    · exact Run.keeps_bind (still_lookupVar _) fun v => still_pure _
    · exact still_pure _

theorem still_emitCall (treg : X64Reg) : Still (emitCall treg) := by
  refine Run.keeps_bind still_get fun s => ?_
  dsimp only
  split
  · exact Run.keeps_bind (still_emit _) fun _ => Run.keeps_bind (still_emit _) fun _ =>
      Run.keeps_bind (still_emit _) fun _ => Run.keeps_bind (still_emit _) fun _ => still_emit _
  · exact Run.keeps_bind (still_emit _) fun _ => Run.keeps_bind (still_emit _) fun _ =>
      still_emit _

theorem still_popArgs (args : List (X64Reg × Option (List Node))) : Still (popArgs args) := by
  induction args with
  | nil => exact still_pure _
  | cons a args ih =>
    obtain ⟨r, arg⟩ := a
    refine Run.keeps_bind ih fun _ => ?_
    split
    · exact still_emitPop r
    · exact still_pure _

theorem still_noteStore (start mid : Nat) : Still (noteStore start mid) :=
  still_modify fun _ => ⟨rfl, rfl⟩

theorem still_emitNop4 (at_ : Nat) : Still (emitNop4 at_) := still_patchBytes _ _

theorem still_patchSlots (slotsAt : Nat) (regs : List X64Reg) (k : Nat) :
    Still (patchSlots slotsAt regs k) := by
  induction regs generalizing k with
  | nil => exact still_pure _
  | cons r regs ih =>
    refine Run.keeps_bind still_get fun s => ?_
    dsimp only
    split
    · exact Run.keeps_bind (still_emitNop4 _) fun _ => ih _
    · exact ih _

theorem still_dropLastReturn : Still dropLastReturn := by
  refine still_modify fun s => ?_
  split
  · exact ⟨rfl, rfl⟩
  · split
    · exact ⟨rfl, rfl⟩
    · exact ⟨rfl, rfl⟩

theorem still_patchReturns (ptrs : List Nat) : Still (patchReturns ptrs) := by
  induction ptrs with
  | nil => exact still_pure _
  | cons ptr ptrs ih =>
    exact Run.keeps_bind ih fun _ => Run.keeps_bind still_get fun _ => still_patchRel _ _

theorem still_epilogue : Still epilogue :=
  Run.keeps_bind still_get fun _ => Run.keeps_bind (still_emit _) fun _ =>
    Run.keeps_bind (still_emit _) fun _ => still_emit _

theorem still_finishFunction (subAt slotsAt : Nat) : Still (finishFunction subAt slotsAt) := by
  have hrest : Still (do
      dropLastReturn
      patchReturns (← Run.get).returns
      epilogue) :=
    Run.keeps_bind still_dropLastReturn fun _ => Run.keeps_bind still_get fun _ =>
      Run.keeps_bind (still_patchReturns _) fun _ => still_epilogue
  refine Run.keeps_bind (still_patchSlots _ _ _) fun _ => Run.keeps_bind still_get fun s => ?_
  dsimp only
  split
  · exact Run.keeps_bind (still_emitNop4 _) fun _ => hrest
  · exact hrest

theorem still_moveToFront (save : Nat) : Still (moveToFront save) := by
  unfold moveToFront
  split
  · exact still_pure _
  · exact Run.keeps_bind still_get fun _ =>
      Run.keeps_bind (still_modify fun _ => ⟨rfl, rfl⟩) fun _ => still_modify fun _ => ⟨rfl, rfl⟩

theorem still_prologue : Still prologue := by
  refine Run.keeps_bind (still_emitPush _) fun _ => ?_
  refine Run.keeps_bind (still_modify fun _ => ⟨rfl, rfl⟩) fun _ => ?_
  refine Run.keeps_bind (still_emit _) fun _ => Run.keeps_bind still_get fun s => ?_
  refine Run.keeps_bind (still_emit _) fun _ => Run.keeps_bind still_get fun s' => ?_
  exact Run.keeps_bind (still_emit _) fun _ => Run.keeps_bind (still_emit _) fun _ => still_pure _

end Still

-- the state behind a pop need not be computed: its depth is no small numeral
attribute [local irreducible] emitPop

/-! ## Stocks of trees -/

/-- The nodes of at least `k` trees. -/
def Stock (k : Nat) (l : List Node) : Prop :=
  ∃ us, (∀ u ∈ us, Term.All CodeOk u) ∧ k ≤ us.length ∧ l = encode (Term.flattenAll us)

theorem Stock.mono {k k' : Nat} {l : List Node} (h : Stock k l) (hk : k' ≤ k) : Stock k' l := by
  obtain ⟨us, hall, hlen, hl⟩ := h
  exact ⟨us, hall, hk.trans hlen, hl⟩

/-- The first tree of a stock. -/
theorem Stock.uncons {k : Nat} {l : List Node} (h : Stock (k + 1) l) :
    ∃ c cs us, CodeOk c cs ∧ (∀ u ∈ cs ++ us, Term.All CodeOk u) ∧ k ≤ us.length ∧
      l = .tok c.loc :: (c.payload.toList ++ encode (Term.flattenAll (cs ++ us))) := by
  obtain ⟨us, hall, hlen, rfl⟩ := h
  cases us with
  | nil => simp at hlen
  | cons u us =>
    cases u with
    | node c cs =>
      have hu := hall _ List.mem_cons_self
      refine ⟨c, cs, us, hu.root, fun u hu' => ?_, by simpa using hlen, ?_⟩
      · rcases List.mem_append.mp hu' with hu' | hu'
        · exact hu.child hu'
        · exact hall u (List.mem_cons_of_mem _ hu')
      · rw [Term.flattenAll_cons, Term.flatten_node, Term.flattenAll_append]
        simp [Cell.nodes]

theorem stock_of_forest {k : Nat} {us : List (Term Cell)} (h : ∀ u ∈ us, Term.All CodeOk u)
    (hk : k ≤ us.length) : Stock k (encode (Term.flattenAll us)) :=
  ⟨us, h, hk, rfl⟩

/-- A node that is a leaf has no operands, and its cell is all of it. -/
theorem leafSize_cell {c : Cell} {cs : List (Term Cell)} (hok : CodeOk c cs) (more : List Node)
    (h : leafSize (.tok c.loc :: (c.payload.toList ++ more)) ≠ 0) :
    cs = [] ∧ leafSize (.tok c.loc :: (c.payload.toList ++ more)) = c.nodes.length := by
  have hpayload := hok.payload
  have hcs := hok.operands
  obtain ⟨⟨token, col, line⟩, p⟩ := c
  have hwide : (wide token || token = .nAddress) = true → arity ⟨⟨token, col, line⟩, p⟩ = 0 →
      cs = [] ∧ (if 1 ≤ (p.toList ++ more).length then 2 else 0) =
        (⟨⟨token, col, line⟩, p⟩ : Cell).nodes.length := by
    intro hw harity
    cases p with
    | none => exact absurd (hpayload.trans hw) (by simp)
    | some a => exact ⟨List.eq_nil_of_length_eq_zero (hcs.trans harity), by simp [Cell.nodes]⟩
  unfold leafSize at h ⊢
  dsimp only [Node.token?] at h ⊢
  cases token
  case tNumber => exact hwide rfl rfl
  case tString => exact hwide rfl rfl
  case tIdentifier => exact hwide rfl rfl
  case nAddress => exact hwide rfl rfl
  case tMstring =>
    have htoken := hok.token
    simp [Cell.token, keptToken] at htoken
  case tThis =>
    cases p with
    | none => exact ⟨List.eq_nil_of_length_eq_zero hcs, rfl⟩
    | some a => exact absurd hpayload (by simp [Cell.token, wide])
  all_goals exact absurd rfl h

/-- A leaf at the start of a stock: the nodes of a tree, with the stock of the others behind it. -/
theorem Stock.leaf {k : Nat} {l : List Node} (h : Stock (k + 1) l) (hsize : leafSize l ≠ 0) :
    Stock 1 (l.take (leafSize l)) ∧ Stock k (l.drop (leafSize l)) := by
  obtain ⟨c, cs, us, hok, hall, hk, rfl⟩ := h.uncons
  obtain ⟨rfl, hleaf⟩ := leafSize_cell hok _ hsize
  have hnodes : Node.tok c.loc :: (c.payload.toList ++ encode (Term.flattenAll ([] ++ us))) =
      c.nodes ++ encode (Term.flattenAll us) := by
    simp [Cell.nodes]
  rw [hleaf, hnodes, List.take_left, List.drop_left]
  have htree : Term.All CodeOk (.node c []) := .node hok (by simp)
  refine ⟨⟨[.node c []], by simpa using htree, by simp, by simp⟩, ?_⟩
  exact stock_of_forest (fun u hu => hall u (by simpa using hu)) hk

/-- A small constant at the start of a stock. -/
theorem Stock.smallImm {k n : Nat} {l : List Node} (h : Stock (k + 1) l)
    (hn : isSmallImm l = some n) : Stock k (l.drop 2) := by
  have hsize : leafSize l = 2 := by
    unfold isSmallImm at hn
    split at hn
    · split at hn
      · rename_i loc v rest hloc
        simp [leafSize, hloc.1]
      · cases hn
    · cases hn
  rw [← hsize]
  exact (h.leaf (by rw [hsize]; decide)).2

/-- The tokens of leaves with an address. -/
def addressToken (t : CTType) : Prop := t = .nAddress ∨ t = .tIdentifier ∨ t = .tThis

/-- The nodes of a leaf with an address. -/
theorem Stock.address {k : Nat} {l : List Node} {t : CTType} (h : Stock (k + 1) l)
    (ht : l.head?.bind Node.token? = some t) (hta : addressToken t) :
    Stock k (l.drop (if t = .tThis then 1 else 2)) := by
  have hsize : leafSize l = if t = .tThis then 1 else 2 := by
    obtain ⟨c, cs, us, hok, -, -, rfl⟩ := h.uncons
    have hpayload := hok.payload
    obtain ⟨⟨token, col, line⟩, p⟩ := c
    obtain rfl : token = t := Option.some.inj ht
    cases p with
    | none =>
      rcases hta with rfl | rfl | rfl
      · simp [Cell.token, wide] at hpayload
      · simp [Cell.token, wide] at hpayload
      · rfl
    | some a =>
      rcases hta with rfl | rfl | rfl
      · simp [leafSize]
      · simp [leafSize]
      · rfl
  rw [← hsize]
  refine (h.leaf ?_).2
  rw [hsize]
  split <;> decide

/-- `leaf_address` finds an address at such a leaf only. -/
theorem leafAddress_token {L : Layout} {s s' : GenState} {leaf : Nat × Option Nat}
    (h : leafAddress L s = .ok (some leaf) s') :
    ∃ t, s.range.head?.bind Node.token? = some t ∧ addressToken t := by
  refine (Run.sat_iff_ok (Q := fun leaf _ => leaf.isSome → ∃ t,
    s.range.head?.bind Node.token? = some t ∧ addressToken t)).mp ?_ _ s' h rfl
  unfold leafAddress
  rw [Run.sat_bind, Run.sat_get]
  dsimp only
  split
  · exact fun h => by cases h
  · rename_i n rest hr
    split
    · rename_i ht
      rw [hr]
      exact Run.sat_of_forall (fun _ _ _ => ⟨_, ht, .inl rfl⟩) fun _ _ => trivial
    · rename_i ht
      rw [hr]
      exact Run.sat_of_forall (fun _ _ _ => ⟨_, ht, .inr (.inl rfl)⟩) fun _ _ => trivial
    · rename_i ht
      rw [hr]
      exact Run.sat_of_forall (fun _ _ _ => ⟨_, ht, .inr (.inr rfl)⟩) fun _ _ => trivial
    · exact fun h => by cases h

/-! ## Parts of an expression -/

section Parts

variable {rec : GenExpr} {k : Nat} {l : List Node}

/-- `codegen_expr` takes a tree and leaves the ones it counts. -/
def TakesTree (rec : GenExpr) : Prop :=
  ∀ (treg : X64Reg) (sreg : Option X64Reg) (k : Nat) (l : List Node), Stock (k + 1) l →
    Takes l (rec treg sreg) fun r l' => Stock (k + r.1) l'

/-- Code that does not read leaves the stock. -/
theorem Still.stock {α : Type} {x : Gen α} (h : Still x) (hl : Stock k l) :
    Takes l x fun _ l' => Stock k l' :=
  h.takes.mono fun _ _ he => he ▸ hl

theorem takes_skipNodes (n : Nat) : Takes l (skipNodes n) fun _ l' => l' = l.drop n := by
  rintro s rfl
  exact ⟨rfl, rfl⟩

theorem takes_getNodeValue (n : Node) : Takes (n :: l) getNodeValue fun _ l' => l' = l := by
  intro s hs
  unfold getNodeValue getNode
  rw [Run.sat_bind, Run.sat_bind, Run.sat_get]
  simp only [hs, Run.sat_bind, Run.sat_set, Run.sat_pure]
  cases n with
  | value v => exact ⟨rfl, rfl⟩
  | _ => exact rfl

theorem takes_getNodeValue_value (n : Nat) :
    Takes (.value n :: l) getNodeValue fun a l' => a = n ∧ l' = l := by
  intro s hs
  unfold getNodeValue getNode
  rw [Run.sat_bind, Run.sat_bind, Run.sat_get]
  simp only [hs, Run.sat_bind, Run.sat_set, Run.sat_pure]
  exact ⟨trivial, trivial, trivial⟩

theorem takes_peekToken (h : Stock (k + 1) l) :
    Takes l peekToken fun t l' => l' = l ∧ (l.head?.bind Node.token?) = some t := by
  obtain ⟨c, cs, us, -, -, -, rfl⟩ := h.uncons
  intro s hs
  unfold peekToken
  rw [Run.sat_bind, Run.sat_get]
  simp only [hs]
  exact ⟨rfl, hs, rfl⟩

/-- The header of a list: its elements are left. -/
theorem takes_comma {β : Type} {f : Nat → Gen β} {R : β → List Node → Prop} (h : Stock (k + 1) l)
    (hf : ∀ count l', Stock (k + count) l' → Takes l' (f count) R) :
    Takes l (do
      if (← peekToken) ≠ .tComma then genExit 1
      else
        skipNodes 1
        let count ← getNodeValue
        f count) R := by
  refine takes_bind (takes_peekToken h) fun t l' ht => ?_
  obtain ⟨rfl, ht⟩ := ht
  by_cases hcomma : t = .tComma
  · rw [if_neg (not_not.mpr hcomma)]
    obtain ⟨c, cs, us, hok, hall, hk, rfl⟩ := h.uncons
    have hc : c.token = .tComma := by
      rw [← hcomma]
      exact Option.some.inj ht
    rw [hok.counted (.inr hc)]
    refine takes_bind (takes_skipNodes 1) fun _ l' hl' => ?_
    have hl' : l' = .value cs.length :: encode (Term.flattenAll (cs ++ us)) := hl'
    subst hl'
    refine takes_bind (takes_getNodeValue_value _) fun count l' hcount => ?_
    obtain ⟨rfl, rfl⟩ := hcount
    refine hf _ _ (stock_of_forest hall ?_)
    rw [List.length_append]
    omega
  · rw [if_pos hcomma]
    exact takes_exit _

variable (hrec : TakesTree rec)

include hrec

theorem takes_single (treg : X64Reg) (sreg : Option X64Reg) (h : Stock (k + 1) l) :
    Takes l (single rec treg sreg) fun _ l' => Stock k l' := by
  refine takes_bind (hrec treg sreg k l h) fun r l' hr => ?_
  obtain ⟨count, var⟩ := r
  dsimp only
  unfold expectSingle
  split
  · exact takes_exit _
  · exact takes_still (still_pure _) fun _ => takes_pure (hr.mono (Nat.le_add_right _ _))

theorem takes_genLeaf (reg : X64Reg) {leaf : List Node} (h : Stock 1 leaf) :
    Takes l (genLeaf rec reg leaf) fun _ l' => l' = l := by
  rintro s rfl
  unfold genLeaf
  rw [Run.sat_bind, Run.sat_get, Run.sat_bind, Run.sat_modify, Run.sat_bind]
  refine Run.sat_mono (hrec reg (some reg) 0 leaf h _ rfl) (fun _ _ h => ?_) fun _ _ h => h
  exact ⟨h.1, rfl⟩

theorem takes_takeLeaf (reg : X64Reg) (h : Stock (k + 1) l) (hsize : leafSize l ≠ 0) :
    Takes l (takeLeaf rec reg (leafSize l)) fun _ l' => Stock k l' := by
  obtain ⟨hleaf, hrest⟩ := h.leaf hsize
  refine takes_get fun s hs => ?_
  rw [hs]
  refine takes_bind (takes_genLeaf hrec reg hleaf) fun _ l' hl' => ?_
  subst hl'
  exact (takes_skipNodes _).mono fun _ l' hl' => hl' ▸ hrest

theorem takes_storeElements (p : X64Reg) (i n : Nat) (h : Stock (k + n) l) :
    Takes l (storeElements rec p i n) fun _ l' => Stock k l' := by
  induction n generalizing i l with
  | zero => exact takes_pure h
  | succ n ih =>
    have h : Stock (k + n + 1) l := h
    refine takes_get fun s hs => ?_
    rw [hs]
    split
    · rename_i imm himm
      refine takes_bind (takes_skipNodes 2) fun _ l' hl' => ?_
      subst hl'
      exact takes_still (still_emit _) fun _ => ih _ (h.smallImm himm)
    · refine takes_still (still_pickScratch p) fun e => ?_
      refine takes_bind (takes_single hrec e _ h) fun _ l' hl' => ?_
      exact takes_still (still_emit _) fun _ => takes_still (still_regFree _) fun _ => ih _ hl'

theorem takes_literalCase (L : Layout) (treg : X64Reg) (n : Node) (h : Stock (k + 1) l) :
    Takes (n :: l) (literalCase L rec treg) fun _ l' => Stock k l' := by
  unfold literalCase
  refine takes_bind (takes_getNodeValue n) fun data l' hl' => ?_
  subst hl'
  refine takes_comma h fun count l' hl' => ?_
  refine takes_still (still_pickSaved treg) fun p => takes_still still_get fun s => ?_
  refine takes_still (still_emit _) fun _ => ?_
  refine takes_bind (takes_storeElements hrec p 0 count hl') fun _ l'' hl'' => ?_
  exact takes_still (still_emit _) fun _ => (still_regFree p).stock hl''

theorem takes_subscriptCase (treg : X64Reg) (wantValue : Bool) (h : Stock (k + 2) l) :
    Takes l (subscriptCase rec treg wantValue) fun _ l' => Stock k l' := by
  have hload : ∀ l', Stock k l' → Takes l'
      (if wantValue then emit (emitLoad treg treg 0) else pure ()) fun _ l' => Stock k l' := by
    intro l' hl'
    split
    · exact (still_emit _).stock hl'
    · exact takes_pure hl'
  unfold subscriptCase
  refine takes_bind (takes_single hrec treg _ h) fun _ l' hl' => takes_get fun s hs => ?_
  dsimp only
  rw [hs]
  have hl' : Stock (k + 1) l' := hl'
  split
  · rename_i imm himm
    have himm := (Option.filter_eq_some_iff.mp himm).1
    refine takes_bind (takes_skipNodes 2) fun _ l'' hl'' => ?_
    subst hl''
    split
    · exact takes_still (still_emit _) fun _ => hload _ (hl'.smallImm himm)
    · exact hload _ (hl'.smallImm himm)
  · split
    · rename_i hsize
      refine takes_still (still_pickScratch treg) fun r => ?_
      refine takes_bind (takes_takeLeaf hrec r hl' hsize) fun _ l'' hl'' => ?_
      exact takes_still (still_emit _) fun _ => takes_still (still_regFree _) fun _ => hload _ hl''
    · refine takes_still (still_pickSaved treg) fun p => takes_still (still_emit _) fun _ => ?_
      refine takes_bind (takes_single hrec treg _ hl') fun _ l'' hl'' => ?_
      exact takes_still (still_emit _) fun _ => takes_still (still_regFree _) fun _ => hload _ hl''

omit hrec in
theorem takes_leafAddress (L : Layout) : Takes l (leafAddress L) fun leaf l' => l' = l ∧
    (leaf.isSome → ∃ t, l.head?.bind Node.token? = some t ∧ addressToken t) := by
  rintro s rfl
  have hstill := still_leafAddress L s
  unfold Run.Sat at hstill ⊢
  cases h : leafAddress L s with
  | stop e s' =>
    rw [h] at hstill
    exact congrArg Prod.snd hstill.1
  | ok leaf s' =>
    rw [h] at hstill
    refine ⟨congrArg Prod.snd hstill, congrArg Prod.fst hstill, fun hsome => ?_⟩
    cases leaf with
    | none => cases hsome
    | some leaf => exact leafAddress_token h

theorem takes_assignLeaf (treg : X64Reg) (addr : Nat) (h : Stock (k + 1)
    (l.drop (if l.head?.bind Node.token? = some .tThis then 1 else 2))) :
    Takes l (assignLeaf rec treg addr) fun _ l' => Stock k l' := by
  unfold assignLeaf
  refine takes_get fun s hs => takes_bind (takes_skipNodes _) fun _ l' hl' => ?_
  rw [hs] at hl'
  have hl' : Stock (k + 1) l' := hl' ▸ h
  refine takes_still still_get fun s' => ?_
  refine takes_bind (takes_single hrec treg _ hl') fun _ l'' hl'' => ?_
  dsimp only
  split
  · exact takes_still (still_emit _) fun _ => (still_noteStore _ _).stock hl''
  · refine takes_still (still_pickScratch treg) fun a => takes_still (still_emit _) fun _ => ?_
    refine takes_still (still_emit _) fun _ => takes_still (still_regFree _) fun _ => ?_
    exact (still_noteStore _ _).stock hl''

theorem takes_assignTree (treg : X64Reg) (h : Stock (k + 2) l) :
    Takes l (assignTree rec treg) fun _ l' => Stock k l' := by
  unfold assignTree
  refine takes_still still_get fun s => ?_
  refine takes_bind (takes_single hrec treg _ h) fun _ l' hl' => takes_get fun s' hs' => ?_
  dsimp only
  rw [hs']
  have hl' : Stock (k + 1) l' := hl'
  split
  · rename_i hsize
    refine takes_still (still_pickScratch treg) fun r => ?_
    refine takes_bind (takes_takeLeaf hrec r hl' hsize) fun _ l'' hl'' => ?_
    refine takes_still (still_emit _) fun _ => takes_still (still_emit _) fun _ => ?_
    refine takes_still (still_regFree _) fun _ => ?_
    exact (still_noteStore _ _).stock hl''
  · refine takes_still (still_pickSaved treg) fun p => takes_still (still_emit _) fun _ => ?_
    refine takes_bind (takes_single hrec treg _ hl') fun _ l'' hl'' => ?_
    refine takes_still (still_emit _) fun _ => takes_still (still_regFree _) fun _ => ?_
    exact (still_noteStore _ _).stock hl''

theorem takes_assignCase (L : Layout) (treg : X64Reg) (h : Stock (k + 2) l) :
    Takes l (assignCase L rec treg) fun _ l' => Stock k l' := by
  unfold assignCase
  refine takes_bind (takes_leafAddress L) fun leaf l' hleaf => ?_
  obtain ⟨rfl, hleaf⟩ := hleaf
  cases leaf with
  | none => exact takes_assignTree hrec treg h
  | some leaf =>
    obtain ⟨t, ht, hta⟩ := hleaf rfl
    have hskip : (if l'.head?.bind Node.token? = some .tThis then 1 else 2) =
        if t = .tThis then 1 else 2 := by
      rw [ht]
      simp
    refine takes_assignLeaf hrec treg leaf.1 ?_
    rw [hskip]
    exact Stock.address h ht hta

/-- The arguments that are leaves are kept as the nodes of a tree. -/
theorem takes_callArgs (n : Nat) (h : Stock (k + n) l) :
    Takes l (callArgs rec n) fun args l' =>
      (∀ arg ∈ args, ∀ leaf, arg = some leaf → Stock 1 leaf) ∧ Stock k l' := by
  induction n generalizing l with
  | zero => exact takes_pure ⟨by simp, h⟩
  | succ n ih =>
    have h : Stock (k + n + 1) l := h
    refine takes_get fun s hs => ?_
    dsimp only
    rw [hs]
    split
    · rename_i hsize
      obtain ⟨hleaf, hrest⟩ := h.leaf hsize
      refine takes_bind (takes_skipNodes _) fun _ l' hl' => ?_
      subst hl'
      refine takes_bind (ih hrest) fun args l' hargs => takes_pure ⟨?_, hargs.2⟩
      intro arg harg leaf hsome
      rcases List.mem_cons.mp harg with rfl | harg
      · cases hsome
        exact hleaf
      · exact hargs.1 arg harg leaf hsome
    · refine takes_bind (takes_single hrec .rax _ h) fun _ l' hl' => ?_
      refine takes_still (still_emitPush _) fun _ => ?_
      refine takes_bind (ih hl') fun args l'' hargs => takes_pure ⟨?_, hargs.2⟩
      intro arg harg leaf hsome
      rcases List.mem_cons.mp harg with rfl | harg
      · cases hsome
      · exact hargs.1 arg harg leaf hsome

theorem takes_loadArgs (args : List (X64Reg × Option (List Node)))
    (h : ∀ arg ∈ args, ∀ leaf, arg.2 = some leaf → Stock 1 leaf) :
    Takes l (loadArgs rec args) fun _ l' => l' = l := by
  induction args with
  | nil => exact takes_pure rfl
  | cons a args ih =>
    obtain ⟨r, arg⟩ := a
    have hrest := ih fun arg' harg' => h arg' (List.mem_cons_of_mem _ harg')
    cases arg with
    | none =>
      change Takes l (loadArgs rec args) _
      exact hrest
    | some leaf =>
      refine takes_bind (takes_genLeaf hrec r (h _ List.mem_cons_self leaf rfl)) fun _ l' hl' => ?_
      subst hl'
      exact hrest

/-- The argument list of a call, with the code of the call itself behind it. -/
theorem takes_arguments {call : Gen Unit} (h : Stock (k + 1) l)
    (hcall : ∀ l', Stock k l' → Takes l' call fun _ l' => Stock k l') :
    Takes l (do
      if (← peekToken) ≠ .tComma then genExit 1
      else
        skipNodes 1
        let count ← getNodeValue
        if sysvArgRegs.length < count then genExit 1
        else
          let args ← callArgs rec count
          popArgs (sysvArgRegs.zip args)
          loadArgs rec (sysvArgRegs.zip args)
          call) fun _ l' => Stock k l' := by
  refine takes_comma h fun count l' hl' => ?_
  split
  · exact takes_exit _
  · refine takes_bind (takes_callArgs hrec count hl') fun args l'' hargs => ?_
    refine takes_still (still_popArgs _) fun _ => ?_
    have hleaves : ∀ arg ∈ sysvArgRegs.zip args, ∀ leaf, arg.2 = some leaf → Stock 1 leaf := by
      rintro ⟨r, arg⟩ harg leaf hleaf
      exact hargs.1 arg (List.of_mem_zip harg).2 leaf hleaf
    refine takes_bind (takes_loadArgs hrec _ hleaves) fun _ l₃ hl₃ => ?_
    subst hl₃
    exact hcall _ hargs.2

theorem takes_callCase (treg : X64Reg) (h : Stock (k + 2) l) :
    Takes l (callCase rec treg) fun _ l' => Stock k l' := by
  have hend : ∀ l', Stock k l' → Takes l' (emitCall treg) fun _ l' => Stock k l' :=
    fun l' hl' => (still_emitCall treg).stock hl'
  unfold callCase
  refine takes_get fun s hs => ?_
  dsimp only
  rw [hs]
  by_cases hsize : leafSize l ≠ 0
  · simp only [if_pos hsize]
    obtain ⟨hleaf, hrest⟩ := h.leaf hsize
    refine takes_bind (takes_skipNodes _) fun _ l' hl' => ?_
    subst hl'
    have hcall : ∀ l', Stock k l' → Takes l' (do
        genLeaf rec .r11 (l.take (leafSize l))
        emitCall treg) fun _ l' => Stock k l' := by
      intro l' hl'
      refine takes_bind (takes_genLeaf hrec _ hleaf) fun _ l'' hl'' => ?_
      subst hl''
      exact hend _ hl'
    exact takes_arguments hrec hrest hcall
  · simp only [if_neg hsize]
    refine takes_bind (takes_single hrec _ _ h) fun _ l' hl' => ?_
    refine takes_still (still_emitPush _) fun _ => takes_arguments hrec hl' fun l'' hl'' => ?_
    exact takes_still (still_emitPop _) fun _ => hend _ hl''

theorem takes_returnGen (h : Stock (k + 1) l) : Takes l (returnGen rec) fun _ l' => Stock k l' := by
  refine takes_bind (hrec .rax _ k l h) fun r l' hr => ?_
  obtain ⟨i, var⟩ := r
  dsimp only
  split
  · exact takes_exit _
  · refine takes_still still_emitJmpRel32 fun off => ?_
    exact Still.stock (still_modify fun _ => ⟨rfl, rfl⟩) (hr.mono (Nat.le_add_right _ _))

/-- The trees of a body: a tree that is a block leaves its statements. -/
theorem takes_statements (n m : Nat) (h : Stock (k + m) l) :
    Takes l (statements rec n m) fun _ l' => Stock k l' := by
  induction n generalizing m l with
  | zero =>
    cases m with
    | zero => exact takes_pure h
    | succ m => exact takes_stop _
  | succ n ih =>
    cases m with
    | zero => exact takes_pure h
    | succ m =>
      have h : Stock (k + m + 1) l := h
      refine takes_bind (hrec .rax none (k + m) l h) fun r l' hr => ?_
      obtain ⟨i, var⟩ := r
      refine ih (m + i) ?_
      rw [← Nat.add_assoc]
      exact hr

theorem takes_storeParams (regs : List X64Reg) (n : Nat) (h : Stock (k + n) l) :
    Takes l (storeParams rec regs n) fun _ l' => Stock k l' := by
  induction n generalizing regs l with
  | zero =>
    cases regs with
    | nil => exact takes_pure h
    | cons r regs => exact takes_pure h
  | succ n ih =>
    cases regs with
    | nil => exact takes_stop _
    | cons r regs =>
      have h : Stock (k + n + 1) l := h
      refine takes_bind (hrec .rax none (k + n) l h) fun r' l' hr => ?_
      refine takes_still (still_emit _) fun _ => ih regs ?_
      exact hr.mono (Nat.le_add_right _ _)

theorem takes_functionTrees (n argCount : Nat)
    (h : Stock (if argCount = 0 then k + 1 else k + 2) l) :
    Takes l (functionTrees rec n argCount) fun _ l' => Stock k l' := by
  unfold functionTrees
  by_cases hargs : argCount = 0
  · rw [if_pos hargs] at h
    simp only [if_neg (not_not.mpr hargs)]
    exact takes_statements hrec n 1 h
  · rw [if_neg hargs] at h
    simp only [if_pos hargs]
    have h : Stock (k + 1 + 1) l := h
    refine takes_bind (hrec .rax none (k + 1) l h) fun r l' hr => ?_
    obtain ⟨i, var⟩ := r
    dsimp only
    split
    · exact takes_bind (takes_exit (Q := fun _ _ => False) _) fun _ _ h => h.elim
    · rename_i hi
      have hr : Stock (k + 1 + argCount) l' := by
        rw [not_not.mp hi]
        exact hr
      refine takes_bind (takes_storeParams hrec _ _ hr) fun _ l'' hl'' => ?_
      exact takes_statements hrec n 1 hl''

theorem takes_codegenFunc (n : Nat) (value : Dest) (argCount : Nat)
    (h : Stock (if argCount = 0 then k + 1 else k + 2) l) :
    Takes l (codegenFunc rec n value argCount) fun _ l' => Stock k l' := by
  unfold codegenFunc
  refine takes_still still_get fun outer => ?_
  refine takes_still (still_modify fun _ => ⟨rfl, rfl⟩) fun _ => ?_
  refine takes_still still_prologue fun ats => ?_
  obtain ⟨subAt, slotsAt⟩ := ats
  refine takes_still (still_modify fun _ => ⟨rfl, rfl⟩) fun _ => ?_
  refine takes_bind (takes_functionTrees hrec n argCount h) fun _ l' hl' => ?_
  refine takes_still (still_finishFunction _ _) fun _ => ?_
  refine takes_still (still_modify fun _ => ⟨rfl, rfl⟩) fun _ => ?_
  exact Still.stock (still_moveToFront _) hl'

/-- A definition without parameters reads its empty parameter list itself. -/
theorem takes_definitionCase (n : Nat) (h : Stock (k + 3) l) :
    Takes l (definitionCase rec n) fun _ l' => Stock k l' := by
  unfold definitionCase
  refine takes_still still_get fun s => ?_
  have h : Stock (k + 2 + 1) l := h
  refine takes_bind (takes_single hrec .rax _ h) fun var l' hl' => ?_
  cases var with
  | none => exact takes_exit _
  | some v =>
    refine takes_still still_get fun s' => takes_still (still_lift _) fun entry => ?_
    split
    · exact takes_exit _
    · rename_i type htype
      split
      · exact takes_exit _
      · refine takes_still (still_modify fun _ => ⟨rfl, rfl⟩) fun _ => ?_
        by_cases hsize : type.size = 0
        · simp only [if_pos hsize]
          have hl' : Stock (k + 1 + 1) l' := hl'
          refine takes_bind (hrec .rax none (k + 1) l' hl') fun r l'' hr => ?_
          obtain ⟨i, var⟩ := r
          dsimp only
          have hl'' : Stock (k + 1) l'' := hr.mono (Nat.le_add_right _ _)
          have hrest : Takes l'' (do
              Run.modify fun t => { t with buf := t.buf.take s.buf.length }
              codegenFunc rec n (.var v) type.size) fun _ l' => Stock k l' := by
            refine takes_still (still_modify fun _ => ⟨rfl, rfl⟩) fun _ => ?_
            refine takes_codegenFunc hrec n _ _ ?_
            rw [if_pos hsize]
            exact hl''
          split
          · exact takes_bind (takes_exit (Q := fun _ _ => False) _) fun _ _ h => h.elim
          · exact hrest
        · simp only [if_neg hsize]
          refine takes_still (still_modify fun _ => ⟨rfl, rfl⟩) fun _ => ?_
          refine takes_codegenFunc hrec n _ _ ?_
          rw [if_neg hsize]
          exact hl'

omit hrec in
theorem takes_addressCase (L : Layout) {t : CTType} (treg : X64Reg) (wantValue : Bool)
    (h : Stock (k + 1) l) (ht : l.head?.bind Node.token? = some t) (hta : addressToken t) :
    Takes l (addressCase L t treg wantValue) fun _ l' => Stock k l' := by
  unfold addressCase
  refine takes_bind (takes_leafAddress L) fun leaf l' hleaf => ?_
  obtain ⟨rfl, -⟩ := hleaf
  cases leaf with
  | none => exact takes_exit _
  | some leaf =>
    refine takes_bind (takes_skipNodes _) fun _ l'' hl'' => ?_
    have hl'' : Stock k l'' := hl'' ▸ h.address ht hta
    dsimp only
    split
    · exact takes_still (still_emit _) fun _ => takes_pure hl''
    · refine takes_still (still_emit _) fun _ => ?_
      split
      · exact takes_still (still_emit _) fun _ => takes_pure hl''
      · exact takes_pure hl''

end Parts

/-! ## Expressions -/

theorem takes_getNodeToken (loc : Loc) {l : List Node} :
    Takes (.tok loc :: l) getNodeToken fun t l' => t = loc.token ∧ l' = l := by
  intro s hs
  unfold getNodeToken getNode
  rw [Run.sat_bind, Run.sat_bind, Run.sat_get]
  simp only [hs, Run.sat_bind, Run.sat_set, Run.sat_pure]
  exact ⟨trivial, trivial, trivial⟩

/-- The reader is put in front of other nodes. -/
theorem takes_load {β : Type} {l l' : List Node} {g : GenState → GenState} {f : Unit → Gen β}
    {R : β → List Node → Prop} (hg : ∀ s, (g s).range = l' ∧ (g s).faults = s.faults)
    (hf : Takes l' (f ()) R) : Takes l (Run.modify g >>= f) R := by
  intro s _
  rw [← (hg s).2]
  exact hf (g s) (hg s).1

/-- Every token of a resolved tree takes its payload and its operands. -/
theorem takesTree_codegenExpr (L : Layout) (n : Nat) : TakesTree (codegenExpr L n) := by
  induction n with
  | zero => exact fun _ _ _ _ _ => takes_stop _
  | succ n ih =>
    intro treg sreg k l h
    obtain ⟨c, cs, us, hok, hall, hk, rfl⟩ := h.uncons
    have hpayload := hok.payload
    have hoperands := hok.operands
    have hcounted := hok.counted
    have htoken := hok.token
    -- the operands, with the trees behind them
    have hstock : ∀ m, cs.length = m → Stock (k + m) (encode (Term.flattenAll (cs ++ us))) := by
      rintro m rfl
      refine stock_of_forest hall ?_
      rw [List.length_append]
      omega
    obtain ⟨⟨token, col, line⟩, p⟩ := c
    unfold codegenExpr
    dsimp only
    refine takes_get fun s hs => ?_
    rw [hs]
    refine takes_bind (takes_getNodeToken _) fun t l' ht => ?_
    obtain ⟨rfl, rfl⟩ := ht
    cases t
    case nBlock =>
      obtain rfl : p = some (.value cs.length) := hcounted (.inl rfl)
      refine takes_still (still_modify fun _ => ⟨rfl, rfl⟩) fun _ => ?_
      refine takes_bind (takes_getNodeValue_value _) fun m l'' hm => ?_
      obtain ⟨rfl, rfl⟩ := hm
      exact takes_pure (hstock _ rfl)
    case tComma =>
      obtain rfl : p = some (.value cs.length) := hcounted (.inr rfl)
      refine takes_bind (takes_getNodeValue_value _) fun m l'' hm => ?_
      obtain ⟨rfl, rfl⟩ := hm
      exact takes_pure (hstock _ rfl)
    case tNumber =>
      cases p with
      | none => simp [Cell.token, wide] at hpayload
      | some node =>
        refine takes_bind (takes_getNodeValue node) fun v l'' hl'' => ?_
        subst hl''
        exact takes_still (still_emit _) fun _ => takes_pure (hstock 0 hoperands)
    case tString =>
      cases p with
      | none => simp [Cell.token, wide] at hpayload
      | some node =>
        refine takes_bind (takes_getNodeValue node) fun v l'' hl'' => ?_
        subst hl''
        refine takes_still still_get fun s' => ?_
        exact takes_still (still_emit _) fun _ => takes_pure (hstock 0 hoperands)
    case tThis =>
      refine takes_load (fun _ => ⟨rfl, rfl⟩) (takes_bind ?_ fun var l'' hl'' => takes_pure hl'')
      exact takes_addressCase L _ _ h rfl (.inr (.inr rfl))
    case tIdentifier =>
      refine takes_load (fun _ => ⟨rfl, rfl⟩) (takes_bind ?_ fun var l'' hl'' => takes_pure hl'')
      exact takes_addressCase L _ _ h rfl (.inr (.inl rfl))
    case nAddress =>
      refine takes_load (fun _ => ⟨rfl, rfl⟩) (takes_bind ?_ fun var l'' hl'' => takes_pure hl'')
      exact takes_addressCase L _ _ h rfl (.inl rfl)
    case nArray =>
      cases p with
      | none => simp [Cell.token, wide] at hpayload
      | some node =>
        refine takes_bind ?_ fun _ l'' hl'' => takes_pure hl''
        exact takes_literalCase ih L treg node (hstock 1 hoperands)
    case tOsb =>
      cases p with
      | some node => simp [Cell.token, wide] at hpayload
      | none =>
        refine takes_bind ?_ fun _ l'' hl'' => takes_pure hl''
        exact takes_subscriptCase ih treg _ (hstock 2 hoperands)
    case tEq =>
      cases p with
      | some node => simp [Cell.token, wide] at hpayload
      | none =>
        refine takes_bind ?_ fun _ l'' hl'' => takes_pure hl''
        exact takes_assignCase ih L treg (hstock 2 hoperands)
    case tCall =>
      cases p with
      | some node => simp [Cell.token, wide] at hpayload
      | none =>
        refine takes_bind ?_ fun _ l'' hl'' => takes_pure hl''
        exact takes_callCase ih treg (hstock 2 hoperands)
    case tAt =>
      cases p with
      | some node => simp [Cell.token, wide] at hpayload
      | none =>
        refine takes_bind ?_ fun _ l'' hl'' => takes_pure hl''
        exact takes_definitionCase ih n (hstock 3 hoperands)
    case tReturn =>
      cases p with
      | some node => simp [Cell.token, wide] at hpayload
      | none =>
        refine takes_bind ?_ fun _ l'' hl'' => takes_pure hl''
        exact takes_returnGen ih (hstock 1 hoperands)
    all_goals simp [Cell.token, keptToken] at htoken

/-- The generator takes a resolved module to its end, and no read of the stream fails. -/
theorem codegen_faults (L : Layout) (page : Nat) {u : Term Cell} (hu : u.All CodeOk)
    (s : GenState) : (codegen L page (encode u.flatten) s).state.faults = s.faults := by
  have hstock : Stock 1 (encode u.flatten) :=
    ⟨[u], by simpa using hu, by simp, by simp⟩
  have hfunc : Takes (encode u.flatten)
      (codegenFunc (codegenExpr L ((encode u.flatten).length + 1)) ((encode u.flatten).length + 1)
        .init 0) fun _ l' => Stock 0 l' :=
    takes_codegenFunc (takesTree_codegenExpr L _) _ _ 0 hstock
  have htakes : Takes s.range (codegen L page (encode u.flatten)) fun _ _ => True := by
    refine takes_load (fun _ => ⟨rfl, rfl⟩) (hfunc.still (fun _ s' => ?_) fun _ _ _ _ => trivial)
    exact rfl
  have h := htakes s rfl
  unfold Run.Sat at h
  cases hs : codegen L page (encode u.flatten) s with
  | ok v s' =>
    rw [hs] at h
    exact h.1
  | stop e s' =>
    rw [hs] at h
    exact h

/-! ## Accepted modules -/

/-- A host whose callbacks answer everything with a number. -/
def answeringHost : ResHost :=
  { bareResHost with metaGen := fun _ _ _ => pure (.done, .value (some (.base .typeInt)) 7) }

/-- The tree of a number. -/
def numberTree (col n : Nat) : Term Cell := .node ⟨⟨.tNumber, col, 1⟩, some (.value n)⟩ []

/-- The tree of `$[i]`, as a module. -/
def thisIndexTree (i : Term Cell) : Term Cell :=
  .node ⟨⟨.nBlock, 1, 1⟩, some (.value 1)⟩
    [.node ⟨⟨.tOsb, 2, 1⟩, none⟩ [.node ⟨⟨.tThis, 1, 1⟩, none⟩ [], i]]

theorem numberTree_ok (col n : Nat) : (numberTree col n).All (NodeOk []) :=
  .node (.of_plain ⟨rfl, by rintro (h | h) <;> cases h⟩ rfl rfl) (by simp)

theorem thisIndexTree_ok {i : Term Cell} (h : i.All (NodeOk [])) :
    (thisIndexTree i).All (NodeOk []) := by
  refine .node (.of_plain ⟨rfl, fun _ => ⟨1, rfl⟩⟩ rfl rfl) fun t ht => ?_
  rw [List.mem_singleton.mp ht]
  refine .node (.of_plain ⟨rfl, by rintro (h | h) <;> cases h⟩ rfl rfl) fun t ht => ?_
  rcases List.mem_pair.mp ht with rfl | rfl
  · exact .node (.of_plain ⟨rfl, by rintro (h | h) <;> cases h⟩ rfl rfl) (by simp)
  · exact h

/-- The run of the resolver over `$[i]`. -/
def answered (i : Term Cell) : ResState :=
  (resolve answeringHost (parsedState []) (encode (thisIndexTree i).flatten)).state

/-- The tree of `1 < 2`. -/
def lessTree : Term Cell := .node ⟨⟨.tLess, 4, 1⟩, none⟩ [numberTree 3 1, numberTree 5 2]

theorem lessTree_ok : lessTree.All (NodeOk []) := by
  refine .node (.of_plain ⟨rfl, by rintro (h | h) <;> cases h⟩ rfl rfl) fun t ht => ?_
  rcases List.mem_pair.mp ht with rfl | rfl
  · exact numberTree_ok 3 1
  · exact numberTree_ok 5 2

/-- The text `$[1<2]`. -/
def lessIndexText : Bytes := ascii ['$', '[', '1', '<', '2', ']']

end Cup
