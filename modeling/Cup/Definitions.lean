/-
  The types of function definitions. The parser asks `cup_type` for a function of `argc + 1`
  slots, the sentinel among them, while `newtype` takes the size as the number of parameters and
  adds a sentinel of its own. So a type that is found has one parameter too many
  (`paramsAgree_never`), and one that is made runs into the assertion of `newtype` that no
  parameter is the sentinel (`functionType_aborts`).
-/
import Cup.Interning
import Cup.ParserForm

namespace Cup

open Lib (Stop Run)

/-! ## The size of a function type -/

theorem entryMatches_true {types : List CUPType} {type : CupKind} {size : Nat} {data : TData}
    {i : Nat} {ptr : CUPType} (h : entryMatches types type size data i ptr = .ok true) :
    ptr.cuptype = type ∧ ptr.size = size := by
  by_cases hk : ptr.cuptype = type
  · by_cases hs : ptr.size = size
    · exact ⟨hk, hs⟩
    · rw [entryMatches_of_size hs] at h
      exact absurd h (by simp)
  · rw [entryMatches_of_kind hk] at h
    exact absurd h (by simp)

/-- What the search finds has the kind and the size of the request. -/
theorem cupTypeGetEx_found {types : List CUPType} {type : CupKind} {size : Nat} {data : TData}
    {l : List CUPType} {k : Nat} {t : TRef}
    (h : cupTypeGetEx types type size data l k = .ok (some t)) :
    ∃ i ptr, t = .heap (k + i) ∧ l[i]? = some ptr ∧ ptr.cuptype = type ∧ ptr.size = size := by
  induction l generalizing k with
  | nil => cases h
  | cons ptr l ih =>
    unfold cupTypeGetEx at h
    cases hm : entryMatches types type size data k ptr with
    | error e =>
      rw [hm] at h
      cases h
    | ok b =>
      rw [hm] at h
      cases b with
      | true =>
        cases h
        exact ⟨0, ptr, rfl, rfl, entryMatches_true hm⟩
      | false =>
        obtain ⟨i, q, ht, hq, hok⟩ := ih h
        exact ⟨i + 1, q, by rw [ht, Nat.add_assoc, Nat.add_comm 1], hq, hok⟩

/-- The kinds whose entries have the size of the request; a pointer has the size of a pointer. -/
def sized : CupKind → Bool
  | .typeArray | .typeFunction => true
  | _ => false

theorem newtype_entry {mem : Nat → Nat → Slot} {rec : CupKind → Nat → TData → Comp TRef}
    {type : CupKind} {size : Nat} {data : TData} {s s' : CUPState} {newt : CUPType}
    (htype : sized type) (h : newtype mem rec type size data s = .ok newt s') :
    newt.cuptype = type ∧ newt.size = size := by
  unfold newtype at h
  rw [Run.get_bind] at h
  cases type
  case typeArray =>
    cases data with
    | type t =>
      dsimp only at h
      cases ht : typeAt s.types t with
      | none =>
        rw [ht] at h
        cases h
      | some item =>
        rw [ht] at h
        obtain ⟨element, s₁, -, h⟩ := Run.bind_eq_ok.mp h
        cases h
        exact ⟨rfl, rfl⟩
    | _ =>
      obtain ⟨_, s₁, -, h⟩ := Run.bind_eq_ok.mp h
      cases h
  case typeFunction =>
    obtain ⟨slots, s₁, -, h⟩ := Run.bind_eq_ok.mp h
    cases slots with
    | nil => cases h
    | cons ret params =>
      obtain ⟨args, s₂, -, h⟩ := Run.bind_eq_ok.mp h
      cases h
      exact ⟨rfl, rfl⟩
  all_goals cases htype

/-- The answer to a request, found or made, has the kind and the size of the request. -/
theorem cupTypeFuel_entry {mem : Nat → Nat → Slot} {n size : Nat} {type : CupKind} {data : TData}
    {s s' : CUPState} {t : TRef} (htype : sized type)
    (h : cupTypeFuel mem n type size data s = .ok t s') :
    ∃ ty, typeAt s'.types t = some ty ∧ ty.cuptype = type ∧ ty.size = size := by
  have hget : ∀ types, cupTypeGet types type size data = cupTypeGetEx types type size data types 0 := by
    intro types
    cases type
    case typeArray => rfl
    case typeFunction => rfl
    all_goals cases htype
  cases n with
  | zero => cases h
  | succ n =>
    unfold cupTypeFuel at h
    rw [Run.get_bind] at h
    obtain ⟨r, s₁, hr, h⟩ := Run.bind_eq_ok.mp h
    obtain ⟨hfound, rfl⟩ := Run.lift_eq_ok.mp hr
    rw [hget] at hfound
    cases r with
    | some t' =>
      cases h
      obtain ⟨i, ptr, rfl, hp, hk, hs⟩ := cupTypeGetEx_found hfound
      rw [typeAt, Nat.zero_add]
      exact ⟨ptr, hp, hk, hs⟩
    | none =>
      dsimp only at h
      split at h
      · cases h
      · obtain ⟨newt, s₂, hn, h⟩ := Run.bind_eq_ok.mp h
        rw [Run.get_bind, Run.modify_bind] at h
        cases h
        rw [typeAt, List.getElem?_concat_length]
        exact ⟨newt, rfl, newtype_entry htype hn⟩

/-! ## Definitions -/

/-- The parser gets a type with `argc` parameters, all of them unknown. -/
def ParamsAgree (host : Host) (argc : Nat) (s : CUPState) : Prop :=
  ∃ t s' alignment ret args, functionType host argc s = .ok t s' ∧
    typeAt s'.types t = some ⟨.typeFunction, alignment, argc, .func ret args⟩ ∧
    args.take argc = List.replicate argc .null

/-- Whatever was defined before: the type of a function never has the number of parameters of
    its definition. -/
theorem paramsAgree_never (host : Host) (argc : Nat) (s : CUPState) :
    ¬ ParamsAgree host argc s := by
  rintro ⟨t, s', alignment, ret, args, h, ht, -⟩
  unfold functionType functionSlots at h
  split at h
  · cases h
  · rename_i hargc
    obtain ⟨slots, s₁, -, h⟩ := Run.bind_eq_ok.mp h
    rw [cupType_apply] at h
    obtain ⟨ty, hty, -, hsize⟩ := cupTypeFuel_entry rfl h
    have hsize : argc = (argc + 1) % 2 ^ 16 := by
      rw [← hsize, ← Option.some.inj (ht.symm.trans hty)]
    omega

/-! ## The assertion

The requests of the parser have NULL or the sentinel in each slot, and no definition ever puts a
function type into the table. -/

/-- No entry is a function type. -/
def FuncFree (types : List CUPType) : Prop := ∀ ptr ∈ types, ptr.cuptype ≠ .typeFunction

/-- A slot of the scratch buffer, as definitions leave it. -/
def SlotOk (slot : Slot) : Prop := slot = .null ∨ slot = .type (.base .typeVoid)

/-- The parameter loop of `newtype` stops at the first sentinel. -/
theorem newtypeArgs_sentinel {rec : CupKind → Nat → TData → Comp TRef} {garbage : Nat → Slot}
    {params : List Slot} (hok : ∀ slot ∈ params, SlotOk slot)
    (hmem : .type (.base .typeVoid) ∈ params) (j : Nat) (args : List Slot) (s : CUPState) :
    newtypeArgs rec garbage params j args s = .stop (.assertion "it != &cup_type_void") s := by
  induction params generalizing j args with
  | nil => cases hmem
  | cons slot params ih =>
    rcases hok slot List.mem_cons_self with rfl | rfl
    · rw [newtypeArgs]
      refine ih (fun q hq => hok q (List.mem_cons_of_mem _ hq)) ?_ _ _
      simpa using hmem
    · rw [newtypeArgs, if_pos rfl]
      rfl

/-- The scratch buffer of a request with `argc` parameters. -/
def requestSlots (argc : Nat) (tempmem : List Slot) : List Slot :=
  (tempmem ++ List.replicate (256 - tempmem.length) Slot.null).set (argc + 1) (.type (.base .typeVoid))

theorem functionSlots_ok {argc : Nat} (h : ¬ 2048 ≤ 8 * (argc + 2)) (s : CUPState) :
    functionSlots argc s = .ok (requestSlots argc s.tempmem)
      { s with tempmem := requestSlots argc s.tempmem } := by
  rw [functionSlots, if_neg h]
  rfl

section Request

variable {argc : Nat} {tempmem : List Slot}

theorem requestSlots_length (argc : Nat) (tempmem : List Slot) :
    256 ≤ (requestSlots argc tempmem).length := by
  rw [requestSlots, List.length_set, List.length_append, List.length_replicate]
  omega

theorem requestSlots_ok (h : ∀ slot ∈ tempmem, SlotOk slot) :
    ∀ slot ∈ requestSlots argc tempmem, SlotOk slot := by
  intro slot hslot
  rcases List.mem_or_eq_of_mem_set hslot with hmem | rfl
  · rcases List.mem_append.mp hmem with hmem | hmem
    · exact h slot hmem
    · exact .inl (List.eq_of_mem_replicate hmem)
  · exact .inr rfl

/-- The words of the request: a return type, and the parameters with the sentinel behind them. -/
theorem requestSlots_words (hargc : argc + 2 < 256) (h : ∀ slot ∈ tempmem, SlotOk slot) :
    ∃ ret params, (requestSlots argc tempmem).take (argc + 2) = ret :: params ∧
      (∀ slot ∈ params, SlotOk slot) ∧ .type (.base .typeVoid) ∈ params := by
  have hlen := requestSlots_length argc tempmem
  have hsentinel : ((requestSlots argc tempmem).take (argc + 2))[argc + 1]? =
      some (.type (.base .typeVoid)) := by
    rw [List.getElem?_take_of_lt (by omega), requestSlots]
    refine List.getElem?_set_self ?_
    rw [requestSlots, List.length_set] at hlen
    omega
  have hok : ∀ slot ∈ (requestSlots argc tempmem).take (argc + 2), SlotOk slot :=
    fun slot hs => requestSlots_ok h slot (List.mem_of_mem_take hs)
  cases hw : (requestSlots argc tempmem).take (argc + 2) with
  | nil =>
    rw [hw] at hsentinel
    cases hsentinel
  | cons ret params =>
    rw [hw] at hsentinel hok
    exact ⟨ret, params, rfl, fun slot hs => hok slot (List.mem_cons_of_mem _ hs),
      List.mem_of_getElem? hsentinel⟩

end Request

/-- A request for a function type ends in the assertion, on a table without function types. -/
theorem cupType_sentinel {mem : Nat → Nat → Slot} {size : Nat} {slots : List Slot}
    {ret : Slot} {params : List Slot} {s : CUPState} (hf : FuncFree s.types) (hsize : size < 2 ^ 16)
    (hlen : size + 1 ≤ slots.length) (hwords : slots.take (size + 1) = ret :: params)
    (hok : ∀ slot ∈ params, SlotOk slot) (hmem : .type (.base .typeVoid) ∈ params) :
    cupType mem .typeFunction size (.slots slots) s =
      .stop (.assertion "it != &cup_type_void") s := by
  have hget : cupTypeGet s.types .typeFunction size (.slots slots) = .ok none :=
    cupTypeGetEx_none fun i ptr hp => entryMatches_of_kind (hf ptr (List.mem_of_getElem? hp))
  have hdata : dataSlots s.types (.slots slots) (size + 1) = .ok (ret :: params) := by
    rw [← hwords]
    exact if_pos hlen
  have hnewt : ∀ n, newtype mem (cupTypeFuel mem n) .typeFunction size (.slots slots) s =
      .stop (.assertion "it != &cup_type_void") s := by
    intro n
    unfold newtype
    rw [Run.get_bind]
    dsimp only
    rw [hdata, Run.lift_ok_bind]
    dsimp only
    rw [Run.bind_of_stop (newtypeArgs_sentinel hok hmem _ _ _)]
  rw [cupType_apply, Nat.mod_eq_of_lt hsize, cupTypeFuel, Run.get_bind, hget, Run.lift_ok_bind]
  dsimp only
  rw [if_neg (by simp), Run.bind_of_stop (hnewt _)]

/-- The parser's request for a function type ends the process. -/
theorem functionType_aborts (host : Host) (argc : Nat) {s : CUPState} (hf : FuncFree s.types)
    (ht : ∀ slot ∈ s.tempmem, SlotOk slot) :
    ∃ e s', functionType host argc s = .stop e s' ∧
      (e = .exit 1 ∨ e = .assertion "it != &cup_type_void") := by
  by_cases hargc : 2048 ≤ 8 * (argc + 2)
  · refine ⟨.exit 1, s, ?_, .inl rfl⟩
    rw [functionType, functionSlots, if_pos hargc]
    rfl
  · obtain ⟨ret, params, hwords, hok, hmem⟩ := requestSlots_words (by omega : argc + 2 < 256) ht
    have hlen := requestSlots_length argc s.tempmem
    have hstop : cupType host.mem .typeFunction (argc + 1) (.slots (requestSlots argc s.tempmem))
        { s with tempmem := requestSlots argc s.tempmem } =
        .stop (.assertion "it != &cup_type_void") { s with tempmem := requestSlots argc s.tempmem } :=
      cupType_sentinel hf (by omega) (by omega) hwords hok hmem
    exact ⟨_, _, by rw [functionType, Run.bind_of_ok (functionSlots_ok hargc s), hstop], .inr rfl⟩

/-- The state that `cup_new` returns. -/
def newState : CUPState where
  nodes := ⟨⟨.tIdentifier, 0, 0⟩, .svalue ⟨0, ascii ['$']⟩⟩
  scopes := [sizeMax, 0]
  scope := 1
  vars := ⟨.live, [⟨⟨0, ascii ['$']⟩, some (.heap 0), 64, 1⟩], 64⟩
  varsMap := [1, 0]
  types := [⟨.typeMeta, 0, 0, .gen metaThis⟩]
  strings := 1

theorem cupNew_bareHost : cupNew bareHost 64 {} = .ok () newState := by decide +kernel

/-- The text `@f()\x7b\x7d`. -/
def oneFunction : CUPState :=
  { newState with input := ascii ['@', 'f', '(', ')', '\x7b', '\x7d'] }

theorem funcFree_newState : FuncFree newState.types := by
  simp [FuncFree, newState]

/-- The first function of a module, without parameters, ends the process. -/
theorem not_paramsAgree_oneFunction :
    (do getToken false; statement bareHost : Comp Nodes).Sat oneFunction (fun _ _ => False)
      (fun e _ => e = .assertion "it != &cup_type_void") ∧ ¬ ParamsAgree bareHost 0 newState := by
  refine ⟨by decide +kernel, ?_⟩
  rintro ⟨t, s', alignment, ret, args, h, -⟩
  obtain ⟨e, s₁, hstop, -⟩ := functionType_aborts bareHost 0 funcFree_newState
    (fun slot hslot => by cases hslot)
  rw [hstop] at h
  cases h

end Cup
