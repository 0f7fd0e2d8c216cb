/-
  The variable table refines a map from name and scope to the oldest entry.

  `VarInv`: the vector holds `64 * 2 ^ k` bytes, the map has a slot for each variable that
  fits, and it is a probe table (`Lib.Probe.Table`) of the variables in the order of their
  insertion. `putVarCore_spec` keeps it over an insertion, with or without growth;
  `varFind_spec` reads the map back from it. `SymReachable` are the states that the host, the
  externals and the parser can build; `varTable_refines` is the main result.
-/
import Cup.Lib.Probe
import Cup.Symbols

namespace Cup

open Lib (Stop Run)
open Lib.Probe (Table)

/-! ## The probe loops -/

/-- The home slot of variable `id`, before masking. -/
def homeOf (items : List CVariable) (id : Nat) : Nat :=
  match items[id]? with
  | some v => hashKey v.name.bytes v.scope
  | none => 0

/-- The variable `varFind` looks for. -/
def CVariable.Is (v : CVariable) (name : Bytes) (scope : Nat) : Prop :=
  v.scope = scope ∧ v.name.bytes = name

instance (v : CVariable) (name : Bytes) (scope : Nat) : Decidable (v.Is name scope) := by
  unfold CVariable.Is; infer_instance

/-- Entry `id` is the variable looked for. -/
def entryIs (items : List CVariable) (name : Bytes) (scope id : Nat) : Bool :=
  match items[id]? with
  | some v => decide (v.Is name scope)
  | none => false

theorem and_mask {n k : Nat} (hn : n = 2 ^ k) (i : Nat) : i &&& (n - 1) = i % n := by
  rw [hn, Nat.and_two_pow_sub_one_eq_mod]

/-- With a mask of `2 ^ k - 1` the loop of `varInsert` is the search for a free slot. -/
theorem freeSlot_eq {map : List Nat} {k : Nat} (hk : map.length = 2 ^ k) {n h i : Nat}
    (hf : Lib.Probe.free map n h = some i) :
    freeSlot map (map.length - 1) n (h % map.length) = .ok i := by
  have hpos : 0 < map.length := hk ▸ Nat.two_pow_pos k
  induction n generalizing h with
  | zero => simp [Lib.Probe.free] at hf
  | succ n ih =>
    unfold Lib.Probe.free at hf
    unfold freeSlot
    have hlt : h % map.length < map.length := Nat.mod_lt _ hpos
    rw [List.getElem?_eq_getElem hlt] at hf ⊢
    cases hv : map[h % map.length] with
    | zero =>
      rw [hv, if_pos rfl] at hf
      rw [Option.some.inj hf]
    | succ id =>
      rw [hv, if_neg (by simp)] at hf
      have := ih hf
      dsimp only
      rw [and_mask hk, Nat.mod_add_mod]
      exact this

/-- The loop of `varFind` is the search of the probe table. -/
theorem varFindLoop_eq {vars : CVec CVariable} {map : List Nat} {k : Nat}
    (hbuf : vars.buf = .live) (hk : map.length = 2 ^ k)
    (hb : ∀ {i id : Nat}, map[i]? = some (id + 1) → id < vars.items.length)
    {name : Bytes} {scope n h : Nat} :
    varFindLoop vars map (map.length - 1) name scope n (h % map.length) =
      .ok (Lib.Probe.find map (entryIs vars.items name scope) n h) := by
  have hpos : 0 < map.length := hk ▸ Nat.two_pow_pos k
  induction n generalizing h with
  | zero => rfl
  | succ n ih =>
    unfold varFindLoop Lib.Probe.find
    have hlt : h % map.length < map.length := Nat.mod_lt _ hpos
    have hslot := List.getElem?_eq_getElem hlt
    rw [hslot]
    cases hv : map[h % map.length] with
    | zero => rfl
    | succ id =>
      rw [hv] at hslot
      have hid := hb hslot
      have hat : vars.at id = .ok vars.items[id] := by
        rw [CVec.at, hbuf, List.getElem?_eq_getElem hid]
      have hent : entryIs vars.items name scope id = decide (vars.items[id].Is name scope) := by
        rw [entryIs, List.getElem?_eq_getElem hid]
      dsimp only
      rw [hat, hent, and_mask hk, Nat.mod_add_mod, ih]
      by_cases his : vars.items[id].Is name scope
      · rw [if_pos (decide_eq_true his)]
        exact if_pos his
      · rw [if_neg (by simpa using his)]
        exact if_neg his

/-! ## Insertion -/

/-- A filled vector and its map. -/
structure VarInv (vars : CVec CVariable) (map : List Nat) : Prop where
  live : vars.buf = .live
  size : vars.items.length * sizeofCVariable ≤ vars.capacity
  slots : vars.capacity = map.length * sizeofCVariable
  power : ∃ k, map.length = 2 ^ (k + 1)
  table : Table (homeOf vars.items) vars.items.length map

theorem homeOf_append {items : List CVariable} {v : CVariable} {id : Nat}
    (h : id < items.length) : homeOf (items ++ [v]) id = homeOf items id := by
  rw [homeOf, homeOf, List.getElem?_append_left h]

/-- `varInsert` of the next entry. -/
theorem varInsert_spec (vars : CVec CVariable) {map : List Nat} {m k : Nat}
    (hbuf : vars.buf = .live) (hslots : vars.capacity = map.length * sizeofCVariable)
    (hk : map.length = 2 ^ k) (hm : m < vars.items.length) (hroom : m < map.length)
    (hT : Table (homeOf vars.items) m map) :
    ∃ map', varInsert vars map m = .ok map' ∧ map'.length = map.length ∧
      Table (homeOf vars.items) (m + 1) map' := by
  obtain ⟨d, hd, hfree, hz, hchain⟩ := hT.free_isSome hroom (homeOf vars.items m)
  refine ⟨map.set ((homeOf vars.items m + d) % map.length) (m + 1), ?_, List.length_set,
    hT.insert hd hz hchain⟩
  have hat : vars.at m = .ok vars.items[m] := by
    rw [CVec.at, hbuf, List.getElem?_eq_getElem hm]
  have hhome : hashKey vars.items[m].name.bytes vars.items[m].scope = homeOf vars.items m := by
    rw [homeOf, List.getElem?_eq_getElem hm]
  have hmask : vars.capacity / sizeofCVariable = map.length := by
    rw [hslots, Nat.mul_div_cancel _ (by decide)]
  unfold varInsert
  rw [hat, hmask]
  show (freeSlot map _ _ _ >>= _) = _
  rw [hhome, and_mask hk, freeSlot_eq hk hfree]
  rfl

/-! ## Growth -/

/-- The vector after a push: one more variable, and twice the bytes when it was full. -/
theorem vectorPush_var {vars : CVec CVariable} {map : List Nat} (h : VarInv vars map)
    (v : CVariable) :
    vectorPush sizeofCVariable vars [v] = .ok
      { buf := .live
        items := vars.items ++ [v]
        capacity := if vars.items.length < map.length then vars.capacity else 2 * vars.capacity } := by
  have hsize := h.size
  have hslots := h.slots
  obtain ⟨k, hk⟩ := h.power
  have hpos : 0 < map.length := hk ▸ Nat.two_pow_pos (k + 1)
  simp only [sizeofCVariable] at hsize hslots
  by_cases hroom : vars.items.length < map.length
  · have hres : vectorResize vars ((vars.items.length + [v].length) * sizeofCVariable) = .ok vars :=
      vectorResize_of_le (by simp only [List.length_singleton, sizeofCVariable]; omega)
    rw [if_pos hroom, vectorPush_of_resize (by simp) hres h.live, h.live]
  · have hres : vectorResize vars ((vars.items.length + [v].length) * sizeofCVariable) =
        .ok { vars with buf := .live, capacity := 2 * vars.capacity } :=
      vectorResize_double (by simp [h.live])
        (by simp only [List.length_singleton, sizeofCVariable]; omega)
        (by simp only [List.length_singleton, sizeofCVariable]; omega)
    rw [if_neg hroom, vectorPush_of_resize (by simp) hres rfl]

/-- The rebuild inserts the variables from the first one on. -/
theorem rebuild_spec (vars : CVec CVariable) {k n : Nat} (hbuf : vars.buf = .live)
    (hslots : vars.capacity = n * sizeofCVariable) (hn : n = 2 ^ k) {m : Nat}
    (hm : m ≤ vars.items.length) (hroom : m ≤ n) :
    ∃ map, (List.range m).foldlM (varInsert vars) (List.replicate n 0) = .ok map ∧
      map.length = n ∧ Table (homeOf vars.items) m map := by
  induction m with
  | zero => exact ⟨_, rfl, List.length_replicate, Table.empty _ _⟩
  | succ m ih =>
    obtain ⟨map, hfold, hlen, hT⟩ := ih (by omega) (by omega)
    obtain ⟨map', hins, hlen', hT'⟩ := varInsert_spec vars (k := k) hbuf (by rw [hslots, hlen])
      (by rw [hlen, hn]) (by omega) (by omega) hT
    refine ⟨map', ?_, by omega, hT'⟩
    rw [List.range_succ, List.foldlM_append, hfold]
    show ([m].foldlM (varInsert vars) map) = _
    rw [List.foldlM_cons, hins]
    rfl

theorem putVarCore_grown {vars vars' : CVec CVariable} {map map' : List Nat} {v : CVariable}
    (hpush : vectorPush sizeofCVariable vars [v] = .ok vars') (hcap : vars'.capacity ≠ vars.capacity)
    (hfold : (List.range vars'.items.length).foldlM (varInsert vars')
      (List.replicate (vars'.capacity / sizeofCVariable) 0) = .ok map') :
    putVarCore vars map v = .ok (vars', map') := by
  unfold putVarCore
  rw [hpush]
  dsimp only [bind, Except.bind]
  rw [if_pos hcap, hfold]

theorem putVarCore_kept {vars vars' : CVec CVariable} {map map' : List Nat} {v : CVariable}
    (hpush : vectorPush sizeofCVariable vars [v] = .ok vars') (hcap : vars'.capacity = vars.capacity)
    (hins : varInsert vars' map (vars'.items.length - 1) = .ok map') :
    putVarCore vars map v = .ok (vars', map') := by
  unfold putVarCore
  rw [hpush]
  dsimp only [bind, Except.bind]
  rw [if_neg (by simp [hcap]), hins]

/-- The first variable makes the vector and the map. -/
theorem putVarCore_empty (map : List Nat) (v : CVariable) :
    ∃ vars' map', putVarCore {} map v = .ok (vars', map') ∧ vars'.items = [v] ∧
      VarInv vars' map' := by
  obtain ⟨map', hfold, hlen, hT⟩ := rebuild_spec ⟨.live, [v], 64⟩ (k := 1) (n := 2)
    (m := 1) rfl rfl rfl (by simp) (by omega)
  have hcap : 64 / sizeofCVariable = 2 := by decide
  refine ⟨⟨.live, [v], 64⟩, map', putVarCore_grown rfl (by simp) (by rw [hcap]; exact hfold), rfl, ?_⟩
  exact
    { live := rfl
      size := by simp [sizeofCVariable]
      slots := by rw [hlen]; rfl
      power := ⟨0, hlen⟩
      table := hT }

theorem putVarCore_spec {vars : CVec CVariable} {map : List Nat} (h : VarInv vars map)
    (v : CVariable) :
    ∃ vars' map', putVarCore vars map v = .ok (vars', map') ∧
      vars'.items = vars.items ++ [v] ∧ VarInv vars' map' := by
  have hpush := vectorPush_var h v
  obtain ⟨k, hk⟩ := h.power
  have hpos : 0 < map.length := hk ▸ Nat.two_pow_pos (k + 1)
  have hsize := h.size
  have hslots := h.slots
  simp only [sizeofCVariable] at hsize hslots
  have hlen1 : (vars.items ++ [v]).length = vars.items.length + 1 := by simp
  by_cases hroom : vars.items.length < map.length
  · rw [if_pos hroom] at hpush
    have hT : Table (homeOf (vars.items ++ [v])) vars.items.length map :=
      h.table.congr_home fun id hid => (homeOf_append hid).symm
    obtain ⟨map', hins, hlen, hT'⟩ := varInsert_spec
      ⟨.live, vars.items ++ [v], vars.capacity⟩ rfl h.slots hk (by simp) hroom hT
    refine ⟨_, map', putVarCore_kept hpush rfl ?_, rfl, ?_⟩
    · rw [hlen1, Nat.add_sub_cancel]
      exact hins
    · exact
        { live := rfl
          size := by rw [hlen1]; simp only [sizeofCVariable]; omega
          slots := by rw [hlen]; exact h.slots
          power := ⟨k, by rw [hlen, hk]⟩
          table := by rw [hlen1]; exact hT' }
  · rw [if_neg hroom] at hpush
    obtain ⟨map', hfold, hlen, hT⟩ := rebuild_spec
      ⟨.live, vars.items ++ [v], 2 * vars.capacity⟩ (k := k + 2) (n := 2 * map.length) (m := vars.items.length + 1) rfl
      (by simp only [sizeofCVariable]; omega) (by rw [hk, Nat.pow_succ' (n := k + 1)])
      (by simp) (by omega)
    have hcap : 2 * vars.capacity / sizeofCVariable = 2 * map.length := by
      simp only [sizeofCVariable]; omega
    refine ⟨_, map', putVarCore_grown hpush ?_ ?_, rfl, ?_⟩
    · dsimp only
      omega
    · rw [hlen1, hcap]
      exact hfold
    · exact
        { live := rfl
          size := by rw [hlen1]; simp only [sizeofCVariable]; omega
          slots := by rw [hlen]; simp only [sizeofCVariable]; omega
          power := ⟨k + 1, by rw [hlen, hk, Nat.pow_succ' (n := k + 1)]⟩
          table := by rw [hlen1]; exact hT }

/-! ## Lookup -/

/-- The oldest entry for a name and a scope. -/
def oldest (items : List CVariable) (name : Bytes) (scope : Nat) : Option Nat :=
  items.findIdx? fun v => decide (v.Is name scope)

theorem find?_range_entryIs (items : List CVariable) (name : Bytes) (scope : Nat) :
    (List.range items.length).find? (entryIs items name scope) = oldest items name scope := by
  have hent : ∀ {id} (h : id < items.length),
      entryIs items name scope id = decide (items[id].Is name scope) := by
    intro id h
    rw [entryIs, List.getElem?_eq_getElem h]
  cases ho : oldest items name scope with
  | none =>
    rw [oldest, List.findIdx?_eq_none_iff] at ho
    rw [List.find?_eq_none]
    intro id hid
    have hlt := List.mem_range.mp hid
    rw [hent hlt, ho _ (List.getElem_mem hlt)]
    simp
  | some id =>
    rw [oldest, List.findIdx?_eq_some_iff_getElem] at ho
    obtain ⟨hlt, his, hfirst⟩ := ho
    rw [List.find?_range_eq_some]
    refine ⟨by rw [hent hlt]; exact his, List.mem_range.mpr hlt, fun j hj => ?_⟩
    rw [hent (by omega)]
    simpa using hfirst j hj

/-- `varFind` returns the oldest entry. -/
theorem varFind_spec {s : CUPState} (h : VarInv s.vars s.varsMap) (name : Bytes) (scope : Nat) :
    varFind s name scope = .ok (oldest s.vars.items name scope) := by
  obtain ⟨k, hk⟩ := h.power
  have hpos : 0 < s.varsMap.length := hk ▸ Nat.two_pow_pos (k + 1)
  have hslots := h.slots
  have hn : s.vars.capacity / sizeofCVariable = s.varsMap.length := by
    rw [hslots, Nat.mul_div_cancel _ (by decide)]
  unfold varFind
  rw [if_neg (by simp only [sizeofCVariable] at hslots; omega), hn]
  dsimp only
  rw [and_mask hk, varFindLoop_eq h.live hk h.table.bound, h.table.find_eq, find?_range_entryIs]
  intro id hid hent
  rw [entryIs, List.getElem?_eq_getElem hid] at hent
  rw [homeOf, List.getElem?_eq_getElem hid]
  have his : s.vars.items[id].Is name scope := of_decide_eq_true hent
  dsimp only
  rw [his.1, his.2]

/-! ## Sequences of insertions -/

/-- The vector is empty, or it is filled and mapped. -/
def VarsOk (s : CUPState) : Prop := s.vars = {} ∨ VarInv s.vars s.varsMap

/-- The map that the table stands for, in every state the insertions build. -/
theorem varFind_oldest {s : CUPState} (h : VarsOk s) (name : Bytes) (scope : Nat) :
    varFind s name scope = .ok (oldest s.vars.items name scope) := by
  rcases h with h | h
  · rw [varFind, h]
    rfl
  · exact varFind_spec h name scope

/-- `putVar` always returns, and appends the variable. -/
theorem putVar_spec {s : CUPState} (h : VarsOk s) (name : CStr) (type : Option TRef)
    (value scope : Nat) :
    ∃ vars' map', putVar name type value scope s = .ok () { s with vars := vars', varsMap := map' } ∧
      vars'.items = s.vars.items ++ [⟨name, type, value, scope⟩] ∧ VarInv vars' map' := by
  have hcore : ∃ vars' map', putVarCore s.vars s.varsMap ⟨name, type, value, scope⟩ =
      .ok (vars', map') ∧ vars'.items = s.vars.items ++ [⟨name, type, value, scope⟩] ∧
      VarInv vars' map' := by
    rcases h with h | h
    · rw [h]
      exact putVarCore_empty _ _
    · exact putVarCore_spec h _
  obtain ⟨vars', map', hput, hitems, hinv⟩ := hcore
  refine ⟨vars', map', ?_, hitems, hinv⟩
  rw [putVar, Run.get_bind, hput, Run.lift_ok_bind]
  rfl

/-- `putVar` for each variable in turn. -/
def putVars : List CVariable → Comp Unit
  | [] => pure ()
  | v :: rest => do
    putVar v.name v.typee v.value v.scope
    putVars rest

theorem putVars_spec {s : CUPState} (h : VarsOk s) (calls : List CVariable) :
    ∃ s', putVars calls s = .ok () s' ∧ s'.vars.items = s.vars.items ++ calls ∧ VarsOk s' := by
  induction calls generalizing s with
  | nil => exact ⟨s, rfl, by simp, h⟩
  | cons v calls ih =>
    obtain ⟨vars', map', hput, hitems, hinv⟩ := putVar_spec h v.name v.typee v.value v.scope
    obtain ⟨s', hrun, hitems', hok⟩ := ih (s := { s with vars := vars', varsMap := map' }) (Or.inr hinv)
    refine ⟨s', ?_, ?_, hok⟩
    · rw [putVars, Run.bind_of_ok hput, hrun]
    · rw [hitems', hitems]
      simp

/-! ## Reachable states -/

/-- What `varFind` compares. -/
def CVariable.key (v : CVariable) : Bytes × Nat := (v.name.bytes, v.scope)

/-- One step of the host, the externals or the parser, as far as the variables go. `other` is
    anything that leaves the names and scopes of the variables alone: the lexer, the type table,
    an assignment of a type or a value to a variable. -/
inductive SymStep (host : Host) : CUPState → CUPState → Prop where
  | addSymbol {s s' : CUPState} {r : Int} {name : Bytes} {val : Nat} {type : Option TRef} :
      cupAddSymbol name val type s = .ok r s' → SymStep host s s'
  | external {s s' : CUPState} {name : CStr} {sig : Nat} :
      externalSymbol host name sig s = .ok () s' → SymStep host s s'
  | declare {s s' : CUPState} {name : CStr} : declare name s = .ok () s' → SymStep host s s'
  | enter {s s' : CUPState} {n : Nat} : scopeEnter s = .ok n s' → SymStep host s s'
  | leave {s s' : CUPState} : scopeLeave s = .ok () s' → SymStep host s s'
  | scope {s : CUPState} (k : Nat) : SymStep host s { s with scope := k }
  | other {s s' : CUPState} : s'.vars.buf = s.vars.buf → s'.vars.capacity = s.vars.capacity →
      s'.vars.items.map CVariable.key = s.vars.items.map CVariable.key →
      s'.varsMap = s.varsMap → s'.scopes = s.scopes → SymStep host s s'

/-- The states built from `cup_new` by such steps. -/
inductive SymReachable (host : Host) : CUPState → Prop where
  | new {s₀ s : CUPState} {addr : Nat} : cupNew host addr s₀ = .ok () s → SymReachable host s
  | step {s s' : CUPState} : SymReachable host s → SymStep host s s' → SymReachable host s'

/-- What the steps keep: a sound table, scope 1 below the root scope, no name twice in a scope. -/
structure SymInv (s : CUPState) : Prop where
  vars : VarsOk s
  root : s.scopes[1]? = some 0
  nodup : (s.vars.items.map CVariable.key).Nodup

theorem oldest_eq_none_iff {items : List CVariable} {name : Bytes} {scope : Nat} :
    oldest items name scope = none ↔ (name, scope) ∉ items.map CVariable.key := by
  rw [oldest, List.findIdx?_eq_none_iff]
  simp only [List.mem_map, not_exists, not_and, decide_eq_false_iff_not]
  constructor
  · intro h v hv hk
    obtain ⟨rfl, rfl⟩ := Prod.mk.inj hk
    exact h v hv ⟨rfl, rfl⟩
  · rintro h v hv ⟨rfl, rfl⟩
    exact h v hv rfl

/-- A variable that `varFind` does not find may be inserted. -/
theorem SymInv.putVar {s s' : CUPState} (h : SymInv s) {name : CStr} {type : Option TRef}
    {value scope : Nat} (hfind : varFind s name.bytes scope = .ok none)
    (hput : putVar name type value scope s = .ok () s') : SymInv s' := by
  obtain ⟨vars', map', hput', hitems, hinv⟩ := putVar_spec h.vars name type value scope
  rw [hput'] at hput
  obtain rfl : _ = s' := (Lib.Res.ok.inj hput).2
  refine ⟨Or.inr hinv, h.root, ?_⟩
  rw [varFind_oldest h.vars] at hfind
  have hnew := oldest_eq_none_iff.mp (Except.ok.inj hfind)
  dsimp only
  rw [hitems, List.map_append]
  exact List.nodup_append.mpr ⟨h.nodup, by simp, by
    rintro a ha b hb rfl
    obtain rfl : a = (name.bytes, scope) := by simpa [CVariable.key] using hb
    exact hnew ha⟩

/-- A failed lookup looked in its first scope. -/
theorem varFind_of_varLookup {s : CUPState} {name : Bytes} {scope : Nat}
    (h : varLookup s name scope = .ok none) : varFind s name scope = .ok none := by
  unfold varLookup varLookupLoop at h
  cases hf : varFind s name scope with
  | error e => rw [hf] at h; exact absurd h (by simp [bind, Except.bind])
  | ok r =>
    cases r with
    | none => rfl
    | some v => rw [hf] at h; exact absurd h (by simp [bind, Except.bind])

/-- A failed lookup from scope 1 looked in the root scope. -/
theorem varFind_root {s : CUPState} {name : Bytes} (hroot : s.scopes[1]? = some 0)
    (h : varLookup s name 1 = .ok none) : varFind s name 0 = .ok none := by
  have h1 := varFind_of_varLookup h
  unfold varLookup varLookupLoop at h
  rw [h1] at h
  simp only [bind, Except.bind, hroot, Nat.one_ne_zero, if_false] at h
  unfold varLookupLoop at h
  cases hf : varFind s name 0 with
  | error e => rw [hf] at h; exact absurd h (by simp [bind, Except.bind])
  | ok r =>
    cases r with
    | none => rfl
    | some v => rw [hf] at h; exact absurd h (by simp [bind, Except.bind])

/-- The invariant reads the variables and the scope table only. -/
theorem SymInv.congr {s s' : CUPState} (h : SymInv s) (hv : s'.vars = s.vars)
    (hm : s'.varsMap = s.varsMap) (hs : s'.scopes = s.scopes) : SymInv s' := by
  refine ⟨?_, hs ▸ h.root, hv ▸ h.nodup⟩
  have := h.vars
  unfold VarsOk at this ⊢
  rw [hv, hm]
  exact this

theorem SymInv.of_butTypes {s s' : CUPState} (h : SymInv s) (hk : s'.butTypes = s.butTypes) :
    SymInv s' := by
  have hb : SymInv s.butTypes := h.congr rfl rfl rfl
  rw [← hk] at hb
  exact hb.congr rfl rfl rfl

theorem homeOf_eq_of_keys {items items' : List CVariable}
    (h : items'.map CVariable.key = items.map CVariable.key) (id : Nat) :
    homeOf items id = homeOf items' id := by
  have hid := congrArg (·[id]?) h
  simp only [List.getElem?_map] at hid
  unfold homeOf
  cases h1 : items[id]? with
  | none =>
    rw [h1] at hid
    cases h2 : items'[id]? with
    | none => rfl
    | some v => rw [h2] at hid; simp at hid
  | some v =>
    rw [h1] at hid
    cases h2 : items'[id]? with
    | none => rw [h2] at hid; simp at hid
    | some v' =>
      rw [h2] at hid
      obtain ⟨hn, hs⟩ : v'.name.bytes = v.name.bytes ∧ v'.scope = v.scope := by
        simpa [CVariable.key] using hid
      dsimp only
      rw [hn, hs]

/-- The table depends on the names and scopes of the variables only. -/
theorem VarsOk.of_keys {s s' : CUPState} (h : VarsOk s) (hb : s'.vars.buf = s.vars.buf)
    (hc : s'.vars.capacity = s.vars.capacity)
    (hk : s'.vars.items.map CVariable.key = s.vars.items.map CVariable.key)
    (hm : s'.varsMap = s.varsMap) : VarsOk s' := by
  have hlen : s'.vars.items.length = s.vars.items.length := by
    simpa using congrArg List.length hk
  rcases h with hv | hv
  · refine Or.inl ?_
    have hnil : s'.vars.items = [] := List.eq_nil_of_length_eq_zero (by rw [hlen, hv]; rfl)
    rw [hv] at hb hc
    cases hvars : s'.vars with
    | mk buf items capacity =>
      rw [hvars] at hb hc hnil
      obtain rfl : buf = .null := hb
      obtain rfl : capacity = 0 := hc
      obtain rfl : items = [] := hnil
      rfl
  · refine Or.inr ⟨hb.trans hv.live, by rw [hlen, hc]; exact hv.size, by rw [hc, hm]; exact hv.slots,
      by rw [hm]; exact hv.power, ?_⟩
    rw [hlen, hm]
    exact hv.table.congr_home fun id _ => homeOf_eq_of_keys hk id

theorem cupAddSymbol_inv {s s' : CUPState} {r : Int} {name : Bytes} {val : Nat}
    {type : Option TRef} (h : SymInv s) (hs : cupAddSymbol name val type s = .ok r s') :
    SymInv s' := by
  unfold cupAddSymbol at hs
  split at hs
  · cases hs
    exact h
  · rw [Run.get_bind] at hs
    have hid : SymInv (idToken s name).1 := by
      unfold idToken
      split <;> exact h.congr rfl rfl rfl
    rcases hpair : idToken s name with ⟨s₁, dup⟩
    rw [hpair] at hs hid
    dsimp only at hs hid
    rw [Run.set_bind] at hs
    cases dup with
    | none =>
      cases hs
      exact hid
    | some svalue =>
      obtain ⟨found, s₂, hl, hs⟩ := Run.bind_eq_ok.mp hs
      obtain ⟨hfound, rfl⟩ := Run.lift_eq_ok.mp hl
      cases found with
      | some v =>
        cases hs
        exact hid
      | none =>
        obtain ⟨u, s₂, hp, hs⟩ := Run.bind_eq_ok.mp hs
        cases hs
        exact hid.putVar (varFind_of_varLookup hfound) hp

theorem externalSymbol_inv {host : Host} {s s' : CUPState} {name : CStr} {sig : Nat}
    (h : SymInv s) (hs : externalSymbol host name sig s = .ok () s') : SymInv s' := by
  unfold externalSymbol at hs
  rw [Run.get_bind] at hs
  cases hfn : findSymbol host name.bytes s.externals with
  | none =>
    rw [hfn] at hs
    cases hs
  | some fn =>
    rw [hfn] at hs
    cases hsig : getData s sig with
    | none =>
      rw [hsig] at hs
      cases hs
    | some off =>
      rw [hsig] at hs
      obtain ⟨type, s₁, hp, hs⟩ := Run.bind_eq_ok.mp hs
      have h₁ := h.of_butTypes ((cupTypeParse_keeps _).of_ok hp)
      rw [Run.get_bind] at hs
      obtain ⟨found, s₂, hl, hs⟩ := Run.bind_eq_ok.mp hs
      obtain ⟨hfound, rfl⟩ := Run.lift_eq_ok.mp hl
      cases found with
      | some v => cases hs
      | none => exact h₁.putVar (varFind_root h₁.root hfound) hs

theorem declare_inv {s s' : CUPState} {name : CStr} (h : SymInv s)
    (hs : declare name s = .ok () s') : SymInv s' := by
  unfold declare at hs
  rw [Run.get_bind] at hs
  obtain ⟨found, s₂, hl, hs⟩ := Run.bind_eq_ok.mp hs
  obtain ⟨hfound, rfl⟩ := Run.lift_eq_ok.mp hl
  cases found with
  | some v =>
    cases hs
    exact h.congr rfl rfl rfl
  | none =>
    obtain ⟨u, s₂, hp, hs⟩ := Run.bind_eq_ok.mp hs
    cases hs
    exact (h.putVar (varFind_of_varLookup hfound) hp).congr rfl rfl rfl

theorem scopeEnter_inv {s s' : CUPState} {n : Nat} (h : SymInv s)
    (hs : scopeEnter s = .ok n s') : SymInv s' := by
  have hne : s.scopes ≠ [] := by
    intro e
    have := h.root
    simp [e] at this
  unfold scopeEnter at hs
  rw [Run.modify_bind, if_neg hne] at hs
  cases hs
  refine ⟨h.vars, ?_, h.nodup⟩
  dsimp only
  rw [List.getElem?_append_left (List.getElem?_eq_some_iff.mp h.root).1]
  exact h.root

theorem scopeLeave_inv {s s' : CUPState} (h : SymInv s) (hs : scopeLeave s = .ok () s') :
    SymInv s' := by
  unfold scopeLeave at hs
  rw [Run.get_bind] at hs
  cases hp : s.scopes[s.scope]? with
  | none =>
    rw [hp] at hs
    cases hs
  | some parent =>
    rw [hp] at hs
    dsimp only at hs
    split at hs
    · cases hs
    · cases hs
      exact h.congr rfl rfl rfl

theorem symStep_inv {host : Host} {s s' : CUPState} (h : SymInv s) (hs : SymStep host s s') :
    SymInv s' := by
  cases hs with
  | addSymbol hs => exact cupAddSymbol_inv h hs
  | external hs => exact externalSymbol_inv h hs
  | declare hs => exact declare_inv h hs
  | enter hs => exact scopeEnter_inv h hs
  | leave hs => exact scopeLeave_inv h hs
  | scope k => exact h.congr rfl rfl rfl
  | other hb hc hk hm hsc => exact ⟨h.vars.of_keys hb hc hk hm, hsc ▸ h.root, hk ▸ h.nodup⟩

theorem cupNew_inv {host : Host} {s₀ s : CUPState} {addr : Nat}
    (h : cupNew host addr s₀ = .ok () s) : SymInv s := by
  unfold cupNew at h
  rw [Run.set_bind] at h
  obtain ⟨t, s₁, ht, h⟩ := Run.bind_eq_ok.mp h
  obtain ⟨r, s₂, hadd, h⟩ := Run.bind_eq_ok.mp h
  cases h
  have hstart : SymInv { scopes := [sizeMax, 0], scope := 1 } :=
    ⟨Or.inl rfl, rfl, List.nodup_nil⟩
  exact cupAddSymbol_inv (hstart.of_butTypes ((cupType_keeps _ _ _).of_ok ht)) hadd

theorem symReachable_inv {host : Host} {s : CUPState} (h : SymReachable host s) : SymInv s := by
  induction h with
  | new h => exact cupNew_inv h
  | step _ hs ih => exact symStep_inv ih hs

/-- Any sequence of `putVar` on an empty vector returns; entry `i` is the variable of call `i`,
    and `varFind` returns the oldest entry for a name and a scope, or NULL when there is none.
    In a reachable state no name stands twice in a scope. -/
theorem varTable_refines {host : Host} (s₀ : CUPState) (calls : List CVariable) {s : CUPState}
    (h : SymReachable host s) :
    (∃ s', putVars calls { s₀ with vars := {} } = .ok () s' ∧ s'.vars.items = calls ∧
      ∀ name scope, varFind s' name scope = .ok (oldest calls name scope)) ∧
    (s.vars.items.map CVariable.key).Nodup := by
  refine ⟨?_, (symReachable_inv h).nodup⟩
  obtain ⟨s', hrun, hitems, hok⟩ := putVars_spec (s := { s₀ with vars := {} }) (Or.inl rfl) calls
  have hcalls : s'.vars.items = calls := by simpa using hitems
  exact ⟨s', hrun, hcalls, fun name scope => by rw [varFind_oldest hok, hcalls]⟩

/-- Five calls: the second collides with the first in a map of four slots, which the fourth fills;
    the third has the name of the first, and the last collides with the fourth in a map of eight. -/
def sampleCalls : List CVariable :=
  [⟨⟨0, ascii ['a']⟩, none, 10, 1⟩, ⟨⟨1, ascii ['e']⟩, none, 11, 1⟩, ⟨⟨2, ascii ['a']⟩, none, 12, 1⟩,
    ⟨⟨3, ascii ['a']⟩, none, 13, 2⟩, ⟨⟨4, ascii ['f']⟩, none, 14, 1⟩]

/-- A host without libraries. -/
def emptyHost : Host := ⟨fun _ _ => .null, fun _ _ => 0, fun _ => 0, fun _ => false⟩

/-- A registered symbol, a scope with two names of which one is met twice, and one of them again
    behind the scope. -/
def sampleSteps : Comp Unit := do
  cupNew emptyHost 64
  let _ ← cupAddSymbol (ascii ['p']) 7 none
  let _ ← scopeEnter
  declare ⟨1, ascii ['x']⟩
  declare ⟨2, ascii ['y']⟩
  declare ⟨3, ascii ['x']⟩
  scopeLeave
  declare ⟨4, ascii ['x']⟩

theorem sampleSteps_reachable : ∃ s, SymReachable emptyHost s ∧ s.vars.items.map CVariable.key =
    [(ascii ['$'], 1), (ascii ['p'], 1), (ascii ['x'], 2), (ascii ['y'], 2), (ascii ['x'], 1)] := by
  have hrun : sampleSteps {} = .ok () (sampleSteps {}).state := by decide +kernel
  refine ⟨(sampleSteps {}).state, ?_, by decide +kernel⟩
  obtain ⟨_, s₁, h₁, hrun⟩ := Run.bind_eq_ok.mp hrun
  obtain ⟨_, s₂, h₂, hrun⟩ := Run.bind_eq_ok.mp hrun
  obtain ⟨_, s₃, h₃, hrun⟩ := Run.bind_eq_ok.mp hrun
  obtain ⟨_, s₄, h₄, hrun⟩ := Run.bind_eq_ok.mp hrun
  obtain ⟨_, s₅, h₅, hrun⟩ := Run.bind_eq_ok.mp hrun
  obtain ⟨_, s₆, h₆, hrun⟩ := Run.bind_eq_ok.mp hrun
  obtain ⟨_, s₇, h₇, h₈⟩ := Run.bind_eq_ok.mp hrun
  have hsymbol : SymReachable emptyHost s₂ := .step (.new h₁) (.addSymbol h₂)
  have hscope : SymReachable emptyHost s₆ :=
    .step (.step (.step (.step hsymbol (.enter h₃)) (.declare h₄)) (.declare h₅)) (.declare h₆)
  exact .step (.step hscope (.leave h₇)) (.declare h₈)

theorem varTable_refines_sample :
    hashKey (ascii ['a']) 1 &&& 3 = hashKey (ascii ['e']) 1 &&& 3 ∧
    hashKey (ascii ['a']) 2 &&& 7 = hashKey (ascii ['f']) 1 &&& 7 ∧
    ∃ s, SymReachable emptyHost s ∧ s.vars.items.length = 5 ∧
      (∃ s', putVars sampleCalls { s with vars := {} } = .ok () s' ∧ s'.vars.items = sampleCalls ∧
        ∀ name scope, varFind s' name scope = .ok (oldest sampleCalls name scope)) ∧
      (s.vars.items.map CVariable.key).Nodup := by
  obtain ⟨s, hs, hkeys⟩ := sampleSteps_reachable
  have hlen := congrArg List.length hkeys
  rw [List.length_map] at hlen
  exact ⟨by decide +kernel, by decide +kernel, s, hs, hlen, varTable_refines s sampleCalls hs⟩

end Cup
