/-
  When the type table is canonical.

  `TShape` is a type as a tree. A `TReq` is a request for a well-formed type whose components
  were returned by earlier requests; `typeStep` runs it and records its shape. `Canonical`: two
  results are the same pointer exactly when the requests have the same shape.

  The code compares a pointer or array request by address only, never finds a meta type again,
  and leaves the slots of unknown parameters unset. `CleanReq` excludes exactly the requests
  that meet one of these. It speaks of the request and of the table as it is then.

  Proved:
  * `typeReach_canonical`: along clean requests no request exits and the table stays canonical.
  * `not_canonical_pointer_twice`: without the condition neither is so.

  The requests are those of `cup_type` and `cup_typemeta` with the words that make one type. A
  request for a struct, a function with `void` among its parameters and the arrays that
  `cup_type_parse` hands over (`Signatures`) are no well-formed requests, and nothing is said of
  them here. That the condition is also necessary is not claimed: a request that is not clean may
  be answered rightly by accident of the unset memory.
-/
import Mathlib.Data.List.Nodup
import Cup.Types

namespace Cup

open Lib (Stop Run)

/-! ## Shapes and requests -/

/-- A type as a tree; an unknown parameter is `none`. -/
inductive TShape where
  | base (k : CupKind)
  | pointer (elem : TShape)
  | array (len : Nat) (elem : TShape)
  | func (ret : TShape) (params : List (Option TShape))
  | genMeta (size gen : Nat)

/-- The base types. -/
def CupKind.isBase : CupKind → Bool
  | .typePointer | .typeArray | .typeFunction | .typeMeta | .typeStruct | .typeCount => false
  | _ => true

/-- A request for a type, made of types that exist. -/
inductive TReq where
  | base (k : CupKind)
  | pointer (elem : TRef)
  | array (len : Nat) (elem : TRef)
  | func (ret : TRef) (params : List (Option TRef))
  | genMeta (size gen : Nat)

/-- The slot of a parameter: NULL when it is unknown. -/
def paramSlot : Option TRef → Slot
  | some t => .type t
  | none => .null

/-- The call that a request stands for. -/
def TReq.run (mem : Nat → Nat → Slot) : TReq → Comp TRef
  | .base k => cupType mem k (baseSize k) .null
  | .pointer elem => cupType mem .typePointer 8 (.type elem)
  | .array len elem => cupType mem .typeArray len (.type elem)
  | .func ret params =>
    cupType mem .typeFunction params.length (.slots (.type ret :: params.map paramSlot))
  | .genMeta size gen => cupTypemeta mem size gen

/-- A run of requests: the state, the shape each table entry was made for, and what the
    requests asked for and got. -/
structure TypeRun where
  state : CUPState
  shapes : List TShape := []
  results : List (TShape × TRef) := []

/-- The shape of a type. -/
def shapeOf (shapes : List TShape) : TRef → TShape
  | .base k => .base k
  | .heap i => shapes.getD i (.base .typeVoid)

def TReq.shape (shapes : List TShape) : TReq → TShape
  | .base k => .base k
  | .pointer elem => .pointer (shapeOf shapes elem)
  | .array len elem => .array len (shapeOf shapes elem)
  | .func ret params => .func (shapeOf shapes ret) (params.map (·.map (shapeOf shapes)))
  | .genMeta size gen => .genMeta size gen

def typeStep (mem : Nat → Nat → Slot) (c : TypeRun) (r : TReq) : Option TypeRun :=
  match r.run mem c.state with
  | .ok t s => some
    { state := s
      shapes := if c.state.types.length < s.types.length then c.shapes ++ [r.shape c.shapes]
        else c.shapes
      results := c.results ++ [(r.shape c.shapes, t)] }
  | .stop _ _ => none

/-- A type that exists: a base type or an entry of the table. -/
def Valid (n : Nat) : TRef → Prop
  | .base k => k.isBase
  | .heap i => i < n

/-- A request for a well-formed type: its components exist, sizes and counts fit a `uint16_t`,
    and no parameter is `void`. -/
def TReq.WF (n : Nat) : TReq → Prop
  | .base k => k.isBase
  | .pointer elem => Valid n elem
  | .array len elem => len < 2 ^ 16 ∧ Valid n elem
  | .func ret params => params.length < 2 ^ 16 ∧ Valid n ret ∧
      ∀ t, some t ∈ params → Valid n t ∧ t ≠ .base .typeVoid
  | .genMeta size _ => size < 2 ^ 16

/-- Two requests got the same pointer exactly when they asked for the same type. -/
def Canonical (c : TypeRun) : Prop :=
  ∀ sh t sh' t', (sh, t) ∈ c.results → (sh', t') ∈ c.results → (t = t' ↔ sh = sh')

/-! ## Clean requests -/

/-- The words `memcmp` compares in a function entry. -/
def words (ptr : CUPType) : List Slot :=
  match ptr.data with
  | .func ret args => (ret :: args).take (ptr.size + 1)
  | _ => []

/-- `cup_type` on the payload of `t` returns `t`: no earlier function entry has the same words. -/
def FoundAgain (types : List CUPType) : TRef → Prop
  | .base _ => True
  | .heap i => ∀ ptr, types[i]? = some ptr → ptr.cuptype = .typeFunction →
      ∀ j < i, ∀ ptr', types[j]? = some ptr' → ptr'.cuptype = .typeFunction →
        ptr'.size = ptr.size → words ptr' ≠ words ptr

/-- The memory that entry `ptr`, made for the parameters `known`, has in the slots of its
    unknown parameters, against a request: if the request agrees with the entry on everything
    that was set, it agrees with the unset memory exactly when it has NULL there. -/
def UnsetAgrees (ptr : CUPType) (known : List (Option TShape)) (ret : TRef)
    (params : List (Option TRef)) : Prop :=
  (words ptr)[0]? = some (.type ret) →
  (∀ (j : Nat) (p : TShape), known[j]? = some (some p) → (words ptr)[j + 1]? = (params.map paramSlot)[j]?) →
  ((∀ j : Nat, known[j]? = some none → (words ptr)[j + 1]? = (params.map paramSlot)[j]?) ↔
    ∀ j : Nat, known[j]? = some none → params[j]? = some none)

/-- A request that meets none of the defects of `cup_type_getEx` and `newtype`: no pointer type
    and no array type of this length exists yet, nor this meta type, components are found again,
    and no unset memory of an earlier function type decides. -/
def CleanReq (c : TypeRun) : TReq → Prop
  | .base _ => True
  | .pointer elem => FoundAgain c.state.types elem ∧
      ∀ ptr ∈ c.state.types, ptr.cuptype ≠ .typePointer
  | .array len elem => FoundAgain c.state.types elem ∧
      ∀ ptr ∈ c.state.types, ptr.cuptype = .typeArray → ptr.size ≠ len
  | .func ret params => (∀ t, some t ∈ params → FoundAgain c.state.types t) ∧
      ∀ (i : Nat) (ptr : CUPType) (sh : TShape) (known : List (Option TShape)),
        c.state.types[i]? = some ptr → ptr.cuptype = .typeFunction →
        c.shapes[i]? = some (.func sh known) → known.length = params.length →
        UnsetAgrees ptr known ret params
  | .genMeta size gen => ∀ ptr ∈ c.state.types, ptr.cuptype = .typeMeta → ptr.size = size →
      ptr.data ≠ .gen gen

/-- Runs of well-formed requests from an empty table, each of which satisfies `P`. -/
inductive TypeReach (mem : Nat → Nat → Slot) (P : TypeRun → TReq → Prop) : TypeRun → Prop where
  | fresh {s : CUPState} : s.types = [] → TypeReach mem P ⟨s, [], []⟩
  | step {c c' : TypeRun} {r : TReq} : TypeReach mem P c → r.WF c.state.types.length → P c r →
      typeStep mem c r = some c' → TypeReach mem P c'

/-! ## The search of the table -/

section Search

variable {types : List CUPType} {type : CupKind} {size : Nat} {data : TData}

/-- A search in which no entry ends the process stops at the first match. -/
theorem cupTypeGetEx_first {l : List CUPType} {k : Nat}
    (h : ∀ i ptr, l[i]? = some ptr → ∃ b, entryMatches types type size data (k + i) ptr = .ok b) :
    (∃ i ptr, l[i]? = some ptr ∧ entryMatches types type size data (k + i) ptr = .ok true ∧
      (∀ j < i, ∀ q, l[j]? = some q → entryMatches types type size data (k + j) q = .ok false) ∧
      cupTypeGetEx types type size data l k = .ok (some (.heap (k + i)))) ∨
    ((∀ i ptr, l[i]? = some ptr → entryMatches types type size data (k + i) ptr = .ok false) ∧
      cupTypeGetEx types type size data l k = .ok none) := by
  induction l generalizing k with
  | nil => exact Or.inr ⟨fun i ptr hi => by simp at hi, rfl⟩
  | cons ptr l ih =>
    obtain ⟨b, hb⟩ := h 0 ptr rfl
    have hrest : ∀ i q, l[i]? = some q →
        ∃ b, entryMatches types type size data (k + 1 + i) q = .ok b := by
      intro i q hq
      rw [show k + 1 + i = k + (i + 1) by omega]
      exact h (i + 1) q hq
    rw [Nat.add_zero] at hb
    cases b with
    | true =>
      refine Or.inl ⟨0, ptr, rfl, hb, by omega, ?_⟩
      rw [cupTypeGetEx, hb]
      rfl
    | false =>
      have hloop : cupTypeGetEx types type size data (ptr :: l) k =
          cupTypeGetEx types type size data l (k + 1) := by
        rw [cupTypeGetEx, hb]
        rfl
      rw [hloop]
      rcases ih hrest with ⟨i, q, hq, hm, hbefore, hr⟩ | ⟨hall, hr⟩
      · refine Or.inl ⟨i + 1, q, hq, ?_, ?_, ?_⟩
        · rw [show k + (i + 1) = k + 1 + i by omega]; exact hm
        · intro j hj q' hq'
          cases j with
          | zero =>
            obtain rfl : ptr = q' := Option.some.inj hq'
            exact hb
          | succ j =>
            rw [show k + (j + 1) = k + 1 + j by omega]
            exact hbefore j (by omega) q' hq'
        · rw [hr, show k + (i + 1) = k + 1 + i by omega]
      · refine Or.inr ⟨fun i q hq => ?_, hr⟩
        cases i with
        | zero =>
          obtain rfl : ptr = q := Option.some.inj hq
          exact hb
        | succ i =>
          rw [show k + (i + 1) = k + 1 + i by omega]
          exact hall i q hq

theorem entryMatches_of_kind {i : Nat} {ptr : CUPType} (h : ptr.cuptype ≠ type) :
    entryMatches types type size data i ptr = .ok false := by
  unfold entryMatches
  rw [if_pos h]

theorem entryMatches_of_size {i : Nat} {ptr : CUPType} (h : ptr.size ≠ size) :
    entryMatches types type size data i ptr = .ok false := by
  unfold entryMatches
  by_cases hk : ptr.cuptype ≠ type
  · rw [if_pos hk]
  · rw [if_neg hk, if_pos h]

/-- An entry is found by its own address. -/
theorem entryMatches_self {i : Nat} {ptr : CUPType} (hk : ptr.cuptype = type)
    (hs : ptr.size = size) :
    entryMatches types type size (.payload (.heap i)) i ptr = .ok true := by
  unfold entryMatches
  rw [if_neg (by simp [hk]), if_neg (by simp [hs]), if_pos (by simp [sameData])]

theorem entryMatches_meta {i : Nat} {ptr : CUPType} (h : sameData i data = false) :
    entryMatches types .typeMeta size data i ptr = .ok false := by
  unfold entryMatches
  split
  · rfl
  · split
    · rfl
    · rw [if_neg (by simp [h])]

/-- Function entries are compared by their words. -/
theorem entryMatches_func {i : Nat} {ptr : CUPType} {own other : List Slot}
    (hk : ptr.cuptype = .typeFunction) (hs : ptr.size = size) (hd : sameData i data = false)
    (hown : dataSlots types (.payload (.heap i)) (size + 1) = .ok own)
    (hother : dataSlots types data (size + 1) = .ok other) :
    entryMatches types .typeFunction size data i ptr = .ok (decide (own = other)) := by
  unfold entryMatches
  rw [if_neg (by simp [hk]), if_neg (by simp [hs]), if_neg (by simp [hd])]
  simp only [hown, hother]
  rfl

end Search

/-! ## The invariant -/

/-- Entry `ptr` is what `newtype` makes for a shape. -/
def EntryOk (shapes : List TShape) (n : Nat) (ptr : CUPType) : TShape → Prop
  | .base _ => False
  | .pointer sh => ∃ t, Valid n t ∧ shapeOf shapes t = sh ∧ ptr = ⟨.typePointer, 8, 8, .element t⟩
  | .array len sh => ∃ t, Valid n t ∧ shapeOf shapes t = sh ∧
      ptr = ⟨.typeArray, 0, len, .element t⟩
  | .func sh known => ∃ ret args, Valid n ret ∧ shapeOf shapes ret = sh ∧
      args.length = known.length ∧
      (∀ (j : Nat) (p : TShape), known[j]? = some (some p) →
        ∃ t, Valid n t ∧ args[j]? = some (.type t) ∧ shapeOf shapes t = p) ∧
      ptr = ⟨.typeFunction, 0, known.length, .func (.type ret) (args ++ [.type (.base .typeVoid)])⟩
  | .genMeta size gen => ptr = ⟨.typeMeta, 0, size, .gen gen⟩

/-- What clean requests keep. -/
structure TypeInv (c : TypeRun) : Prop where
  length : c.shapes.length = c.state.types.length
  entry : ∀ {i : Nat} {ptr : CUPType} {sh : TShape}, c.state.types[i]? = some ptr →
    c.shapes[i]? = some sh → EntryOk c.shapes c.state.types.length ptr sh
  nodup : c.shapes.Nodup
  pointers : ∀ {i j : Nat} {p q : CUPType}, c.state.types[i]? = some p →
    c.state.types[j]? = some q → p.cuptype = .typePointer → q.cuptype = .typePointer → i = j
  arrays : ∀ {i j : Nat} {p q : CUPType}, c.state.types[i]? = some p →
    c.state.types[j]? = some q → p.cuptype = .typeArray → q.cuptype = .typeArray →
    p.size = q.size → i = j
  results : ∀ {sh : TShape} {t : TRef}, (sh, t) ∈ c.results →
    Valid c.state.types.length t ∧ shapeOf c.shapes t = sh

theorem TypeInv.fresh {s : CUPState} (h : s.types = []) : TypeInv ⟨s, [], []⟩ where
  length := by simp [h]
  entry := fun _ hsh => by simp at hsh
  nodup := List.nodup_nil
  pointers := fun hp => by simp [h] at hp
  arrays := fun hp => by simp [h] at hp
  results := fun hr => by simp at hr

theorem TypeInv.exists_shape {c : TypeRun} (h : TypeInv c) {i : Nat} {ptr : CUPType}
    (hp : c.state.types[i]? = some ptr) : ∃ sh, c.shapes[i]? = some sh ∧
      EntryOk c.shapes c.state.types.length ptr sh := by
  have hlt : i < c.shapes.length := h.length ▸ (List.getElem?_eq_some_iff.mp hp).1
  exact ⟨_, List.getElem?_eq_getElem hlt, h.entry hp (List.getElem?_eq_getElem hlt)⟩

theorem TypeInv.exists_entry {c : TypeRun} (h : TypeInv c) {i : Nat} {sh : TShape}
    (hs : c.shapes[i]? = some sh) : ∃ ptr, c.state.types[i]? = some ptr ∧
      EntryOk c.shapes c.state.types.length ptr sh := by
  have hlt : i < c.state.types.length := h.length ▸ (List.getElem?_eq_some_iff.mp hs).1
  exact ⟨_, List.getElem?_eq_getElem hlt, h.entry (List.getElem?_eq_getElem hlt) hs⟩

theorem shapeOf_heap (shapes : List TShape) {i : Nat} (h : i < shapes.length) :
    shapes[i]? = some (shapeOf shapes (.heap i)) := by
  rw [List.getElem?_eq_getElem h, shapeOf, List.getD_eq_getElem?_getD, List.getElem?_eq_getElem h]
  rfl

/-- Types that exist have the same shape only if they are the same. -/
theorem TypeInv.shapeOf_inj {c : TypeRun} (h : TypeInv c) {t t' : TRef}
    (ht : Valid c.state.types.length t) (ht' : Valid c.state.types.length t')
    (he : shapeOf c.shapes t = shapeOf c.shapes t') : t = t' := by
  have hbase : ∀ {i : Nat} {k : CupKind}, Valid c.state.types.length (.heap i) →
      shapeOf c.shapes (.heap i) ≠ .base k := by
    intro i k hi hk
    have hs := shapeOf_heap c.shapes (h.length ▸ hi)
    obtain ⟨ptr, -, hok⟩ := h.exists_entry hs
    rw [hk] at hok
    exact hok
  cases t with
  | base k =>
    cases t' with
    | base k' => exact congrArg TRef.base (TShape.base.inj he)
    | heap i' => exact absurd he.symm (hbase ht')
  | heap i =>
    cases t' with
    | base k' => exact absurd he (hbase ht)
    | heap i' =>
      have hi : i < c.shapes.length := h.length ▸ ht
      have hi' : i' < c.shapes.length := h.length ▸ ht'
      have hs := shapeOf_heap c.shapes hi
      have hs' := shapeOf_heap c.shapes hi'
      rw [he] at hs
      rw [List.getElem?_eq_getElem hi] at hs
      rw [List.getElem?_eq_getElem hi'] at hs'
      have := (List.Nodup.getElem_inj_iff h.nodup).mp (Option.some.inj (hs.trans hs'.symm))
      rw [this]

theorem TypeInv.canonical {c : TypeRun} (h : TypeInv c) : Canonical c := by
  intro sh t sh' t' hr hr'
  obtain ⟨hv, hs⟩ := h.results hr
  obtain ⟨hv', hs'⟩ := h.results hr'
  constructor
  · rintro rfl
    rw [← hs, ← hs']
  · rintro rfl
    exact h.shapeOf_inj hv hv' (hs.trans hs'.symm)

/-! ## A new entry -/

theorem Valid.mono {n m : Nat} {t : TRef} (h : Valid n t) (hm : n ≤ m) : Valid m t := by
  cases t with
  | base k => exact h
  | heap i => exact Nat.lt_of_lt_of_le h hm

theorem shapeOf_append {shapes : List TShape} {t : TRef} (h : Valid shapes.length t)
    (sh : TShape) : shapeOf (shapes ++ [sh]) t = shapeOf shapes t := by
  cases t with
  | base k => rfl
  | heap i =>
    simp only [shapeOf, List.getD_eq_getElem?_getD]
    rw [List.getElem?_append_left h]

theorem EntryOk.append {shapes : List TShape} {ptr : CUPType} {sh : TShape}
    (h : EntryOk shapes shapes.length ptr sh) (new : TShape) :
    EntryOk (shapes ++ [new]) (shapes.length + 1) ptr sh := by
  have hkeep : ∀ {t : TRef}, Valid shapes.length t →
      Valid (shapes.length + 1) t ∧ shapeOf (shapes ++ [new]) t = shapeOf shapes t :=
    fun ht => ⟨ht.mono (Nat.le_succ _), shapeOf_append ht new⟩
  cases sh with
  | base k => exact h
  | pointer sh =>
    obtain ⟨t, ht, hs, hp⟩ := h
    exact ⟨t, (hkeep ht).1, (hkeep ht).2.trans hs, hp⟩
  | array len sh =>
    obtain ⟨t, ht, hs, hp⟩ := h
    exact ⟨t, (hkeep ht).1, (hkeep ht).2.trans hs, hp⟩
  | func sh known =>
    obtain ⟨ret, args, hret, hs, hlen, hargs, hp⟩ := h
    refine ⟨ret, args, (hkeep hret).1, (hkeep hret).2.trans hs, hlen, fun j p hj => ?_, hp⟩
    obtain ⟨t, ht, ha, hs⟩ := hargs j p hj
    exact ⟨t, (hkeep ht).1, ha, (hkeep ht).2.trans hs⟩
  | genMeta size gen => exact h

/-- Appending an entry of a new shape. -/
theorem TypeInv.push {c : TypeRun} (h : TypeInv c) {newt : CUPType} {sh : TShape}
    (hok : EntryOk c.shapes c.state.types.length newt sh) (hnew : sh ∉ c.shapes)
    (hp : newt.cuptype = .typePointer → ∀ ptr ∈ c.state.types, ptr.cuptype ≠ .typePointer)
    (ha : newt.cuptype = .typeArray → ∀ ptr ∈ c.state.types, ptr.cuptype = .typeArray →
      ptr.size ≠ newt.size) :
    TypeInv ⟨{ c.state with types := c.state.types ++ [newt] }, c.shapes ++ [sh],
      c.results ++ [(sh, .heap c.state.types.length)]⟩ := by
  have hlen : (c.state.types ++ [newt]).length = c.shapes.length + 1 := by simp [h.length]
  have hcases : ∀ {i : Nat} {ptr : CUPType}, (c.state.types ++ [newt])[i]? = some ptr →
      (i < c.state.types.length ∧ c.state.types[i]? = some ptr) ∨
        (i = c.state.types.length ∧ ptr = newt) := by
    intro i ptr hi
    rcases Nat.lt_trichotomy i c.state.types.length with hlt | rfl | hgt
    · rw [List.getElem?_append_left hlt] at hi
      exact Or.inl ⟨hlt, hi⟩
    · rw [List.getElem?_append_right (Nat.le_refl _)] at hi
      exact Or.inr ⟨rfl, by simpa using hi.symm⟩
    · rw [List.getElem?_eq_none (by simp; omega)] at hi
      exact absurd hi (by simp)
  refine ⟨by simp [h.length], ?_, ?_, ?_, ?_, ?_⟩
  · intro i ptr sh' hi hs
    dsimp only at hi hs ⊢
    rw [hlen]
    rcases hcases hi with ⟨hlt, hi⟩ | ⟨rfl, rfl⟩
    · rw [List.getElem?_append_left (h.length ▸ hlt)] at hs
      exact EntryOk.append (h.length ▸ h.entry hi hs) sh
    · rw [← h.length, List.getElem?_append_right (Nat.le_refl _)] at hs
      obtain rfl : sh = sh' := by simpa using hs
      exact EntryOk.append (h.length ▸ hok) sh
  · exact List.nodup_append.mpr ⟨h.nodup, by simp, by
      rintro a ha b hb rfl
      obtain rfl : a = sh := by simpa using hb
      exact hnew ha⟩
  · intro i j p q hi hj hkp hkq
    rcases hcases hi with ⟨-, hi'⟩ | ⟨rfl, rfl⟩ <;> rcases hcases hj with ⟨-, hj'⟩ | ⟨rfl, rfl⟩
    · exact h.pointers hi' hj' hkp hkq
    · exact absurd hkp (hp hkq p (List.mem_of_getElem? hi'))
    · exact absurd hkq (hp hkp q (List.mem_of_getElem? hj'))
    · rfl
  · intro i j p q hi hj hkp hkq hs
    rcases hcases hi with ⟨-, hi'⟩ | ⟨rfl, rfl⟩ <;> rcases hcases hj with ⟨-, hj'⟩ | ⟨rfl, rfl⟩
    · exact h.arrays hi' hj' hkp hkq hs
    · exact absurd hs (ha hkq p (List.mem_of_getElem? hi') hkp)
    · exact absurd hs.symm (ha hkp q (List.mem_of_getElem? hj') hkq)
    · rfl
  · intro sh' t hr
    dsimp only
    rw [hlen]
    rcases List.mem_append.mp hr with hr | hr
    · obtain ⟨hv, hs⟩ := h.results hr
      rw [← h.length] at hv
      exact ⟨hv.mono (Nat.le_succ _), (shapeOf_append hv sh).trans hs⟩
    · obtain ⟨rfl, rfl⟩ : sh' = sh ∧ t = .heap c.state.types.length := by simpa using hr
      refine ⟨h.length ▸ Nat.lt_succ_self _, ?_⟩
      rw [shapeOf, ← h.length]
      simp

/-- A result that was there. -/
theorem TypeInv.found {c : TypeRun} (h : TypeInv c) {t : TRef} {sh : TShape}
    (hv : Valid c.state.types.length t) (hs : shapeOf c.shapes t = sh) :
    TypeInv ⟨c.state, c.shapes, c.results ++ [(sh, t)]⟩ := by
  refine ⟨h.length, h.entry, h.nodup, h.pointers, h.arrays, fun {sh' t'} hr => ?_⟩
  rcases List.mem_append.mp hr with hr | hr
  · exact h.results hr
  · obtain ⟨rfl, rfl⟩ : sh' = sh ∧ t' = t := by simpa using hr
    exact ⟨hv, hs⟩

/-! ## Runs of `cup_type` -/

section Execution

variable {mem : Nat → Nat → Slot} {s : CUPState} {type : CupKind} {size : Nat} {data : TData}

theorem cupType_apply : cupType mem type size data s =
    cupTypeFuel mem (s.types.length + 2) type (size % 2 ^ 16) data s := by
  rw [cupType, Run.get_bind]

theorem cupTypeFuel_found {n : Nat} {t : TRef}
    (h : cupTypeGet s.types type size data = .ok (some t)) :
    cupTypeFuel mem (n + 1) type size data s = .ok t s := by
  rw [cupTypeFuel, Run.get_bind, h, Run.lift_ok_bind]
  rfl

theorem cupTypeFuel_new {n : Nat} {newt : CUPType}
    (h : cupTypeGet s.types type size data = .ok none) (hd : data ≠ .null)
    (hn : newtype mem (cupTypeFuel mem n) type size data s = .ok newt s) :
    cupTypeFuel mem (n + 1) type size data s =
      .ok (.heap s.types.length) { s with types := s.types ++ [newt] } := by
  rw [cupTypeFuel, Run.get_bind, h, Run.lift_ok_bind]
  dsimp only
  rw [if_neg hd, Run.bind_of_ok hn]
  rfl

/-- The memory of the argument slots: what the loop sets and the rest of the new block. -/
def storedArgs (garbage : Nat → Slot) : List (Option TRef) → Nat → List Slot
  | [], _ => []
  | some t :: rest, j => .type t :: storedArgs garbage rest (j + 1)
  | none :: rest, j => garbage j :: storedArgs garbage rest (j + 1)

theorem storedArgs_length (garbage : Nat → Slot) (params : List (Option TRef)) (j : Nat) :
    (storedArgs garbage params j).length = params.length := by
  induction params generalizing j with
  | nil => rfl
  | cons p rest ih => cases p <;> simp [storedArgs, ih]

theorem storedArgs_known {garbage : Nat → Slot} {params : List (Option TRef)} {j i : Nat}
    {t : TRef} (h : params[i]? = some (some t)) :
    (storedArgs garbage params j)[i]? = some (.type t) := by
  induction params generalizing i j with
  | nil => simp at h
  | cons p rest ih =>
    cases i with
    | zero =>
      obtain rfl : p = some t := Option.some.inj h
      rfl
    | succ i =>
      have hi := ih (j := j + 1) h
      cases p <;> exact hi

/-- The loop of `newtype`, when every component is found again. -/
theorem newtypeArgs_found {rec : CupKind → Nat → TData → Comp TRef} {garbage : Nat → Slot}
    {params : List (Option TRef)}
    (h : ∀ t, some t ∈ params → t ≠ .base .typeVoid ∧ ∃ item, typeAt s.types t = some item ∧
      rec item.cuptype item.size (.payload t) s = .ok t s) (j : Nat) (args : List Slot) :
    newtypeArgs rec garbage (params.map paramSlot) j args s =
      .ok (args ++ storedArgs garbage params j) s := by
  induction params generalizing j args with
  | nil => simp [newtypeArgs, storedArgs]
  | cons p rest ih =>
    have hrest := ih fun t ht => h t (List.mem_cons_of_mem _ ht)
    cases p with
    | none =>
      simp only [List.map_cons, paramSlot, newtypeArgs, storedArgs]
      rw [hrest, List.append_assoc]
      rfl
    | some t =>
      obtain ⟨hvoid, item, hitem, hrec⟩ := h t List.mem_cons_self
      simp only [List.map_cons, paramSlot, newtypeArgs, storedArgs]
      rw [if_neg hvoid, Run.get_bind, hitem]
      dsimp only
      rw [Run.bind_of_ok hrec, hrest, List.append_assoc]
      rfl

end Execution

/-- The words of a function entry, as `memcmp` reads them. -/
theorem dataSlots_entry {types : List CUPType} {i n : Nat} {ptr : CUPType} {ret : Slot}
    {args : List Slot} (hp : types[i]? = some ptr) (hs : ptr.size = n)
    (hd : ptr.data = .func ret args) (hlen : n ≤ args.length) :
    dataSlots types (.payload (.heap i)) (n + 1) = .ok (words ptr) := by
  obtain ⟨k, a, size, d⟩ := ptr
  obtain rfl : size = n := hs
  obtain rfl : d = .func ret args := hd
  simp only [dataSlots, hp, words]
  rw [if_pos (by simp only [List.length_cons]; omega)]

/-- The search for an entry by its own payload, when no entry ends the process and none before
    it matches. -/
theorem cupTypeGetEx_self {types : List CUPType} {i : Nat} {ptr : CUPType}
    (hp : types[i]? = some ptr)
    (hall : ∀ j q, types[j]? = some q → j ≠ i → ∃ b,
      entryMatches types ptr.cuptype ptr.size (.payload (.heap i)) j q = .ok b ∧
        (j < i → b = false)) :
    cupTypeGetEx types ptr.cuptype ptr.size (.payload (.heap i)) types 0 = .ok (some (.heap i)) := by
  have hself : entryMatches types ptr.cuptype ptr.size (.payload (.heap i)) i ptr = .ok true :=
    entryMatches_self rfl rfl
  have hok : ∀ j q, types[j]? = some q → ∃ b,
      entryMatches types ptr.cuptype ptr.size (.payload (.heap i)) (0 + j) q = .ok b := by
    intro j q hq
    rw [Nat.zero_add]
    by_cases hj : j = i
    · subst hj
      obtain rfl := Option.some.inj (hq.symm.trans hp)
      exact ⟨true, hself⟩
    · obtain ⟨b, hb, -⟩ := hall j q hq hj
      exact ⟨b, hb⟩
  rcases cupTypeGetEx_first hok with ⟨j, q, hq, hm, hbefore, hr⟩ | ⟨hnone, -⟩
  · rw [Nat.zero_add] at hm hr
    rcases Nat.lt_trichotomy j i with hlt | rfl | hgt
    · obtain ⟨b, hb, hfalse⟩ := hall j q hq (by omega)
      rw [hfalse hlt] at hb
      exact absurd (hm.symm.trans hb) (by simp)
    · exact hr
    · have := hbefore i hgt ptr hp
      rw [Nat.zero_add] at this
      exact absurd (hself.symm.trans this) (by simp)
  · have := hnone i ptr hp
    rw [Nat.zero_add] at this
    exact absurd (hself.symm.trans this) (by simp)

theorem dataSlots_of_func {c : TypeRun} (h : TypeInv c) {i : Nat} {ptr : CUPType}
    (hp : c.state.types[i]? = some ptr) (hk : ptr.cuptype = .typeFunction) :
    dataSlots c.state.types (.payload (.heap i)) (ptr.size + 1) = .ok (words ptr) := by
  obtain ⟨sh, -, hok⟩ := h.exists_shape hp
  cases sh with
  | base k => exact absurd hok id
  | pointer sh =>
    obtain ⟨t, -, -, rfl⟩ := hok
    exact absurd hk (by simp)
  | array len sh =>
    obtain ⟨t, -, -, rfl⟩ := hok
    exact absurd hk (by simp)
  | genMeta size gen =>
    obtain rfl : ptr = _ := hok
    exact absurd hk (by simp)
  | func sh known =>
    obtain ⟨ret, args, -, -, hlen, -, rfl⟩ := hok
    exact dataSlots_entry hp rfl rfl (by simp [hlen])

/-- A type that exists is found again by its payload, so that interning a component again
    changes nothing. -/
theorem TypeInv.refound {c : TypeRun} (h : TypeInv c) (mem : Nat → Nat → Slot) {t : TRef}
    (hv : Valid c.state.types.length t) (hf : FoundAgain c.state.types t) (n : Nat) :
    ∃ item, typeAt c.state.types t = some item ∧
      cupTypeFuel mem (n + 1) item.cuptype item.size (.payload t) c.state = .ok t c.state := by
  cases t with
  | base k =>
    refine ⟨baseType k, rfl, cupTypeFuel_found ?_⟩
    have hk : k.isBase := hv
    cases k <;> first | rfl | exact absurd hk (by decide)
  | heap i =>
    obtain ⟨ptr, hp⟩ : ∃ ptr, c.state.types[i]? = some ptr := ⟨_, List.getElem?_eq_getElem hv⟩
    refine ⟨ptr, hp, cupTypeFuel_found ?_⟩
    obtain ⟨sh, -, hok⟩ := h.exists_shape hp
    cases sh with
    | base k => exact absurd hok id
    | pointer sh =>
      obtain ⟨t, -, -, rfl⟩ := hok
      refine cupTypeGetEx_self hp fun j q hq hj => ⟨false, entryMatches_of_kind ?_, fun _ => rfl⟩
      exact fun hk => hj (h.pointers hq hp hk rfl)
    | array len sh =>
      obtain ⟨t, -, -, rfl⟩ := hok
      refine cupTypeGetEx_self hp fun j q hq hj => ⟨false, ?_, fun _ => rfl⟩
      by_cases hk : q.cuptype = .typeArray
      · exact entryMatches_of_size fun hs => hj (h.arrays hq hp hk rfl hs)
      · exact entryMatches_of_kind hk
    | genMeta size gen =>
      obtain rfl : ptr = _ := hok
      refine cupTypeGetEx_self hp fun j q hq hj => ⟨false, entryMatches_meta ?_, fun _ => rfl⟩
      simpa [sameData] using hj
    | func sh known =>
      obtain ⟨ret, args, -, -, hlen, -, rfl⟩ := hok
      refine cupTypeGetEx_self hp fun j q hq hj => ?_
      by_cases hk : q.cuptype = .typeFunction
      · by_cases hs : q.size = known.length
        · have hq' := dataSlots_of_func h hq hk
          rw [hs] at hq'
          refine ⟨_, entryMatches_func hk hs (by simpa [sameData] using hj) hq'
            (dataSlots_of_func h hp rfl), fun hlt => ?_⟩
          exact decide_eq_false (hf _ hp rfl j hlt q hq hk hs)
        · exact ⟨false, entryMatches_of_size hs, fun _ => rfl⟩
      · exact ⟨false, entryMatches_of_kind hk, fun _ => rfl⟩

/-! ## One request -/

/-- The outcomes of a request that keep the table canonical: the type of its shape is found, or
    an entry of a new shape is appended. -/
inductive Answered (c : TypeRun) (sh : TShape) : Lib.Res CUPState TRef → Prop where
  | found {t : TRef} : Valid c.state.types.length t → shapeOf c.shapes t = sh →
      Answered c sh (.ok t c.state)
  | made {newt : CUPType} : EntryOk c.shapes c.state.types.length newt sh → sh ∉ c.shapes →
      (newt.cuptype = .typePointer → ∀ ptr ∈ c.state.types, ptr.cuptype ≠ .typePointer) →
      (newt.cuptype = .typeArray → ∀ ptr ∈ c.state.types, ptr.cuptype = .typeArray →
        ptr.size ≠ newt.size) →
      Answered c sh
        (.ok (.heap c.state.types.length) { c.state with types := c.state.types ++ [newt] })

/-- A search in which no entry matches. -/
theorem cupTypeGetEx_none {types : List CUPType} {type : CupKind} {size : Nat} {data : TData}
    (h : ∀ i ptr, types[i]? = some ptr → entryMatches types type size data i ptr = .ok false) :
    cupTypeGetEx types type size data types 0 = .ok none := by
  rcases cupTypeGetEx_first (l := types) (k := 0)
      (fun i ptr hp => ⟨false, by rw [Nat.zero_add]; exact h i ptr hp⟩) with
    ⟨i, ptr, hp, hm, -, -⟩ | ⟨-, hr⟩
  · rw [Nat.zero_add, h i ptr hp] at hm
    exact absurd hm (by simp)
  · exact hr

section Requests

variable {mem : Nat → Nat → Slot} {c : TypeRun}

theorem cupType_pointer (h : TypeInv c) {elem : TRef} (hwf : (TReq.pointer elem).WF c.state.types.length)
    (hclean : CleanReq c (.pointer elem)) :
    Answered c (.pointer (shapeOf c.shapes elem)) ((TReq.pointer elem).run mem c.state) := by
  obtain ⟨hf, hno⟩ := hclean
  obtain ⟨item, hitem, hrec⟩ := h.refound mem hwf hf c.state.types.length
  have hget : cupTypeGet c.state.types .typePointer 8 (.type elem) = .ok none :=
    cupTypeGetEx_none fun i ptr hp => entryMatches_of_kind (hno ptr (List.mem_of_getElem? hp))
  have hnewt : newtype mem (cupTypeFuel mem (c.state.types.length + 1)) .typePointer 8 (.type elem)
      c.state = .ok ⟨.typePointer, 8, 8, .element elem⟩ c.state := by
    unfold newtype
    rw [Run.get_bind]
    dsimp only
    rw [hitem]
    dsimp only
    rw [Run.bind_of_ok hrec]
    rfl
  have hrun : (TReq.pointer elem).run mem c.state = .ok (.heap c.state.types.length)
      { c.state with types := c.state.types ++ [⟨.typePointer, 8, 8, .element elem⟩] } := by
    rw [TReq.run, cupType_apply]
    exact cupTypeFuel_new hget (by simp) hnewt
  rw [hrun]
  refine .made ⟨elem, hwf, rfl, rfl⟩ (fun hmem => ?_) (fun _ => hno) (fun hk => absurd hk (by simp))
  obtain ⟨i, hi, he⟩ := List.mem_iff_getElem.mp hmem
  obtain ⟨ptr, hp, t, -, -, rfl⟩ := h.exists_entry (i := i) (by rw [List.getElem?_eq_getElem hi, he])
  exact hno _ (List.mem_of_getElem? hp) rfl

theorem cupType_array (h : TypeInv c) {len : Nat} {elem : TRef}
    (hwf : (TReq.array len elem).WF c.state.types.length) (hclean : CleanReq c (.array len elem)) :
    Answered c (.array len (shapeOf c.shapes elem)) ((TReq.array len elem).run mem c.state) := by
  obtain ⟨hf, hno⟩ := hclean
  obtain ⟨hlen, hv⟩ := hwf
  obtain ⟨item, hitem, hrec⟩ := h.refound mem hv hf c.state.types.length
  have hget : cupTypeGet c.state.types .typeArray len (.type elem) = .ok none :=
    cupTypeGetEx_none fun i ptr hp => by
      by_cases hk : ptr.cuptype = .typeArray
      · exact entryMatches_of_size (hno ptr (List.mem_of_getElem? hp) hk)
      · exact entryMatches_of_kind hk
  have hnewt : newtype mem (cupTypeFuel mem (c.state.types.length + 1)) .typeArray len (.type elem)
      c.state = .ok ⟨.typeArray, 0, len, .element elem⟩ c.state := by
    unfold newtype
    rw [Run.get_bind]
    dsimp only
    rw [hitem]
    dsimp only
    rw [Run.bind_of_ok hrec]
    rfl
  have hrun : (TReq.array len elem).run mem c.state = .ok (.heap c.state.types.length)
      { c.state with types := c.state.types ++ [⟨.typeArray, 0, len, .element elem⟩] } := by
    rw [TReq.run, cupType_apply, Nat.mod_eq_of_lt hlen]
    exact cupTypeFuel_new hget (by simp) hnewt
  rw [hrun]
  refine .made ⟨elem, hv, rfl, rfl⟩ (fun hmem => ?_) (fun hk => absurd hk (by simp)) (fun _ => hno)
  obtain ⟨i, hi, he⟩ := List.mem_iff_getElem.mp hmem
  obtain ⟨ptr, hp, t, -, -, rfl⟩ := h.exists_entry (i := i) (by rw [List.getElem?_eq_getElem hi, he])
  exact hno _ (List.mem_of_getElem? hp) rfl rfl

theorem cupType_meta (h : TypeInv c) {size gen : Nat}
    (hwf : (TReq.genMeta size gen).WF c.state.types.length) (hclean : CleanReq c (.genMeta size gen)) :
    Answered c (.genMeta size gen) ((TReq.genMeta size gen).run mem c.state) := by
  have hget : cupTypeGet c.state.types .typeMeta size (.code gen) = .ok none :=
    cupTypeGetEx_none fun i ptr _ => entryMatches_meta rfl
  have hrun : (TReq.genMeta size gen).run mem c.state = .ok (.heap c.state.types.length)
      { c.state with types := c.state.types ++ [⟨.typeMeta, 0, size, .gen gen⟩] } := by
    rw [TReq.run, cupTypemeta, cupType_apply, Nat.mod_eq_of_lt hwf]
    exact cupTypeFuel_new hget (by simp) rfl
  rw [hrun]
  refine .made rfl (fun hmem => ?_) (fun hk => absurd hk (by simp)) (fun hk => absurd hk (by simp))
  obtain ⟨i, hi, he⟩ := List.mem_iff_getElem.mp hmem
  obtain ⟨ptr, hp, hok⟩ := h.exists_entry (i := i) (by rw [List.getElem?_eq_getElem hi, he])
  obtain rfl : ptr = _ := hok
  exact hclean _ (List.mem_of_getElem? hp) rfl rfl rfl

/-- For a clean request, `memcmp` finds an entry equal exactly when it was made for the same
    shape. -/
theorem words_eq_iff (h : TypeInv c) {ret : TRef} {params : List (Option TRef)}
    (hwf : (TReq.func ret params).WF c.state.types.length) (hclean : CleanReq c (.func ret params))
    {i : Nat} {ptr : CUPType} (hp : c.state.types[i]? = some ptr) (hk : ptr.cuptype = .typeFunction)
    (hs : ptr.size = params.length) :
    words ptr = .type ret :: params.map paramSlot ↔
      c.shapes[i]? = some ((TReq.func ret params).shape c.shapes) := by
  obtain ⟨-, hret, hparams⟩ := hwf
  obtain ⟨sh, hsh, hok⟩ := h.exists_shape hp
  cases sh with
  | base k => exact absurd hok id
  | pointer sh => obtain ⟨t, -, -, rfl⟩ := hok; exact absurd hk (by simp)
  | array len sh => obtain ⟨t, -, -, rfl⟩ := hok; exact absurd hk (by simp)
  | genMeta size gen => obtain rfl : ptr = _ := hok; exact absurd hk (by simp)
  | func sh known =>
    obtain ⟨r, args, hr, rfl, hlen, hargs, rfl⟩ := hok
    have hknown : known.length = params.length := hs
    have hwords : words ⟨.typeFunction, 0, known.length,
        .func (.type r) (args ++ [.type (.base .typeVoid)])⟩ = .type r :: args := by
      simp [words, ← hlen]
    have hunset := hclean.2 i _ _ known hp rfl hsh hknown
    rw [UnsetAgrees, hwords] at hunset
    simp only [List.getElem?_cons_zero, List.getElem?_cons_succ] at hunset
    rw [hwords, hsh]
    constructor
    · -- equal words: the unset slots are NULL in the request, the others have equal shapes
      intro he
      obtain ⟨hre, rfl⟩ := List.cons.inj he
      obtain rfl : r = ret := Slot.type.inj hre
      have hnull := (hunset rfl fun _ _ _ => rfl).mp fun _ _ => rfl
      have hshape : known = params.map (·.map (shapeOf c.shapes)) := by
        refine List.ext_getElem? fun j => ?_
        rw [List.getElem?_map]
        cases hj : known[j]? with
        | none =>
          rw [List.getElem?_eq_none (by rw [← hknown]; exact List.getElem?_eq_none_iff.mp hj)]
          rfl
        | some p =>
          cases p with
          | none => rw [hnull j hj]; rfl
          | some p =>
            obtain ⟨t, -, hat, rfl⟩ := hargs j p hj
            rw [List.getElem?_map] at hat
            obtain ⟨q, hq, hqt⟩ := Option.map_eq_some_iff.mp hat
            cases q with
            | none => exact absurd hqt (by simp [paramSlot])
            | some t' =>
              obtain rfl : t' = t := Slot.type.inj hqt
              rw [hq]
              rfl
      rw [TReq.shape, ← hshape]
    · -- equal shapes: the known slots agree, and so the unset ones are NULL
      intro he
      obtain ⟨hre, hshape⟩ := TShape.func.inj (Option.some.inj he)
      obtain rfl : r = ret := h.shapeOf_inj hr hret hre
      have hset : ∀ (j : Nat) (p : TShape), known[j]? = some (some p) →
          args[j]? = (params.map paramSlot)[j]? := by
        intro j p hj
        obtain ⟨t, ht, hat, hts⟩ := hargs j p hj
        rw [hshape, List.getElem?_map] at hj
        obtain ⟨q, hq, hqp⟩ := Option.map_eq_some_iff.mp hj
        cases q with
        | none => exact absurd hqp (by simp)
        | some t' =>
          have ht' := (hparams t' (List.mem_of_getElem? hq)).1
          obtain rfl : t = t' := h.shapeOf_inj ht ht' (hts.trans (Option.some.inj hqp).symm)
          rw [hat, List.getElem?_map, hq]
          rfl
      have hnull := (hunset rfl hset).mpr fun j hj => by
        rw [hshape, List.getElem?_map] at hj
        obtain ⟨q, hq, hqp⟩ := Option.map_eq_some_iff.mp hj
        cases q with
        | none => exact hq
        | some t' => exact absurd hqp (by simp)
      refine congrArg (Slot.type r :: ·) (List.ext_getElem? fun j => ?_)
      cases hj : known[j]? with
      | none =>
        have hge := List.getElem?_eq_none_iff.mp hj
        rw [List.getElem?_eq_none (by omega), List.getElem?_eq_none (by simp; omega)]
      | some p =>
        cases p with
        | none => exact hnull j hj
        | some p => exact hset j p hj

theorem cupType_func (h : TypeInv c) {ret : TRef} {params : List (Option TRef)}
    (hwf : (TReq.func ret params).WF c.state.types.length) (hclean : CleanReq c (.func ret params)) :
    Answered c ((TReq.func ret params).shape c.shapes) ((TReq.func ret params).run mem c.state) := by
  have hiff := @words_eq_iff c h ret params hwf hclean
  obtain ⟨hlen, hret, hparams⟩ := hwf
  have hslots : dataSlots c.state.types (.slots (.type ret :: params.map paramSlot))
      (params.length + 1) = .ok (.type ret :: params.map paramSlot) := by
    simp only [dataSlots]
    rw [if_pos (by simp), List.take_of_length_le (by simp)]
  have hmatch : ∀ i ptr, c.state.types[i]? = some ptr → ∃ b,
      entryMatches c.state.types .typeFunction params.length
        (.slots (.type ret :: params.map paramSlot)) i ptr = .ok b ∧
      (b = true ↔ c.shapes[i]? = some ((TReq.func ret params).shape c.shapes)) := by
    intro i ptr hp
    by_cases hk : ptr.cuptype = .typeFunction ∧ ptr.size = params.length
    · obtain ⟨hk, hs⟩ := hk
      have hown := dataSlots_of_func h hp hk
      rw [hs] at hown
      refine ⟨_, entryMatches_func hk hs rfl hown hslots, ?_⟩
      rw [decide_eq_true_iff]
      exact hiff hp hk hs
    · refine ⟨false, ?_, iff_of_false (by simp) fun hsh => hk ?_⟩
      · by_cases hk' : ptr.cuptype = .typeFunction
        · exact entryMatches_of_size fun hs => hk ⟨hk', hs⟩
        · exact entryMatches_of_kind hk'
      · obtain ⟨r, args, -, -, -, -, rfl⟩ := h.entry hp hsh
        exact ⟨rfl, by simp⟩
  have hrun : (TReq.func ret params).run mem c.state =
      cupTypeFuel mem (c.state.types.length + 2) .typeFunction params.length
        (.slots (.type ret :: params.map paramSlot)) c.state := by
    rw [TReq.run, cupType_apply, Nat.mod_eq_of_lt hlen]
  rw [hrun]
  -- the search returns the entry made for this shape, if there is one
  rcases cupTypeGetEx_first (l := c.state.types) (k := 0) (fun i ptr hp => by
      rw [Nat.zero_add]
      obtain ⟨b, hb, -⟩ := hmatch i ptr hp
      exact ⟨b, hb⟩) with ⟨i, ptr, hp, hm, -, hr⟩ | ⟨hnone, hr⟩
  · rw [Nat.zero_add] at hm hr
    rw [show cupTypeFuel mem (c.state.types.length + 2) .typeFunction params.length
      (.slots (.type ret :: params.map paramSlot)) c.state = .ok (.heap i) c.state from
        cupTypeFuel_found hr]
    obtain ⟨b, hb, hbs⟩ := hmatch i ptr hp
    have htrue : b = true := Except.ok.inj (hb.symm.trans hm)
    have hsh := hbs.mp htrue
    have hi := (List.getElem?_eq_some_iff.mp hp).1
    refine .found hi ?_
    have := shapeOf_heap c.shapes (i := i) (h.length ▸ hi)
    exact Option.some.inj (this.symm.trans hsh)
  · have hargs : newtypeArgs (cupTypeFuel mem (c.state.types.length + 1)) (mem c.state.types.length)
        (params.map paramSlot) 0 [] c.state =
        .ok (storedArgs (mem c.state.types.length) params 0) c.state :=
      newtypeArgs_found (fun t ht =>
        ⟨(hparams t ht).2, h.refound mem (hparams t ht).1 (hclean.1 t ht) _⟩) 0 []
    have hnewt : newtype mem (cupTypeFuel mem (c.state.types.length + 1)) .typeFunction params.length
        (.slots (.type ret :: params.map paramSlot)) c.state =
        .ok ⟨.typeFunction, 0, params.length, .func (.type ret)
          (storedArgs (mem c.state.types.length) params 0 ++ [.type (.base .typeVoid)])⟩ c.state := by
      unfold newtype
      rw [Run.get_bind]
      dsimp only
      rw [hslots, Run.lift_ok_bind]
      dsimp only
      rw [Run.bind_of_ok hargs]
      rfl
    rw [show cupTypeFuel mem (c.state.types.length + 2) .typeFunction params.length
      (.slots (.type ret :: params.map paramSlot)) c.state = _ from
        cupTypeFuel_new hr (by simp) hnewt]
    refine .made ⟨ret, storedArgs (mem c.state.types.length) params 0, hret, rfl, ?_, ?_, by simp⟩
      (fun hmem => ?_) (fun hk => absurd hk (by simp)) (fun hk => absurd hk (by simp))
    · rw [storedArgs_length, List.length_map]
    · intro j p hj
      rw [List.getElem?_map] at hj
      obtain ⟨q, hq, hqp⟩ := Option.map_eq_some_iff.mp hj
      cases q with
      | none => exact absurd hqp (by simp)
      | some t =>
        exact ⟨t, (hparams t (List.mem_of_getElem? hq)).1, storedArgs_known hq, Option.some.inj hqp⟩
    · obtain ⟨i, hi, he⟩ := List.mem_iff_getElem.mp hmem
      have hsh : c.shapes[i]? = some ((TReq.func ret params).shape c.shapes) := by
        rw [List.getElem?_eq_getElem hi, he]
      obtain ⟨ptr, hp, -⟩ := h.exists_entry hsh
      obtain ⟨b, hb, hbs⟩ := hmatch i ptr hp
      have hfalse := hnone i ptr hp
      rw [Nat.zero_add, hb] at hfalse
      have : b = false := Except.ok.inj hfalse
      exact absurd (hbs.mpr hsh) (by simp [this])

end Requests

/-- Every clean request is answered. -/
theorem TypeInv.answered {c : TypeRun} (h : TypeInv c) (mem : Nat → Nat → Slot) {r : TReq}
    (hwf : r.WF c.state.types.length) (hclean : CleanReq c r) :
    Answered c (r.shape c.shapes) (r.run mem c.state) := by
  cases r with
  | base k =>
    have hk : k.isBase := hwf
    have hrun : (TReq.base k).run mem c.state = .ok (.base k) c.state := by
      cases k <;> first | rfl | exact absurd hk (by decide)
    rw [hrun]
    exact .found hwf rfl
  | pointer elem => exact cupType_pointer h hwf hclean
  | array len elem => exact cupType_array h hwf hclean
  | func ret params => exact cupType_func h hwf hclean
  | genMeta size gen => exact cupType_meta h hwf hclean

/-- A clean request is answered and keeps the invariant. -/
theorem typeStep_spec {c : TypeRun} (h : TypeInv c) (mem : Nat → Nat → Slot) {r : TReq}
    (hwf : r.WF c.state.types.length) (hclean : CleanReq c r) :
    ∃ c', typeStep mem c r = some c' ∧ TypeInv c' := by
  have hans := h.answered mem hwf hclean
  unfold typeStep
  cases hrun : r.run mem c.state with
  | stop e s => rw [hrun] at hans; cases hans
  | ok t s =>
    rw [hrun] at hans
    refine ⟨_, rfl, ?_⟩
    cases hans with
    | found hv hs =>
      rw [if_neg (by simp)]
      exact h.found hv hs
    | made hok hnew hp ha =>
      rw [if_pos (by simp)]
      exact h.push hok hnew hp ha

theorem typeReach_inv {mem : Nat → Nat → Slot} {c : TypeRun} (h : TypeReach mem CleanReq c) :
    TypeInv c := by
  induction h with
  | fresh hs => exact .fresh hs
  | step _ hwf hclean hstep ih =>
    obtain ⟨c', hc', hinv⟩ := typeStep_spec ih _ hwf hclean
    obtain rfl := Option.some.inj (hstep.symm.trans hc')
    exact hinv

/-- Along clean requests no request exits, and two requests get the same pointer exactly when
    they ask for the same type. -/
theorem typeReach_canonical {mem : Nat → Nat → Slot} {c : TypeRun}
    (h : TypeReach mem CleanReq c) :
    Canonical c ∧ ∀ r : TReq, r.WF c.state.types.length → CleanReq c r →
      ∃ c', typeStep mem c r = some c' := by
  have hinv := typeReach_inv h
  refine ⟨hinv.canonical, fun r hwf hclean => ?_⟩
  obtain ⟨c', hc', -⟩ := typeStep_spec hinv mem hwf hclean
  exact ⟨c', hc'⟩

/-! ## A run of requests -/

/-- Memory that nothing was written to yet. -/
def staleMem (_ _ : Nat) : Slot := .junk 7

/-- Two function types with two parameters, of which the first leaves one unknown; two lengths of
    arrays, a pointer and a meta type. -/
def mixedTypes : List CUPType :=
  [⟨.typeFunction, 0, 2, .func (.type (.base .typeInt))
      [.type (.base .typeUint8), .junk 7, .type (.base .typeVoid)]⟩,
    ⟨.typeArray, 0, 3, .element (.base .typeInt)⟩, ⟨.typeArray, 0, 4, .element (.heap 1)⟩,
    ⟨.typePointer, 8, 8, .element (.heap 0)⟩, ⟨.typeMeta, 0, 8, .gen 1⟩,
    ⟨.typeFunction, 0, 2, .func (.type (.base .typeInt))
      [.type (.heap 3), .type (.base .typeInt), .type (.base .typeVoid)]⟩]

/-- What they were made for. -/
def mixedShapes : List TShape :=
  [.func (.base .typeInt) [some (.base .typeUint8), none], .array 3 (.base .typeInt),
    .array 4 (.array 3 (.base .typeInt)),
    .pointer (.func (.base .typeInt) [some (.base .typeUint8), none]), .genMeta 8 1,
    .func (.base .typeInt) [some (.pointer (.func (.base .typeInt)
      [some (.base .typeUint8), none])), some (.base .typeInt)]]

/-- The run up to the table of `k` types and the first `m` results. The last function type is asked
    for twice, and answered from the table. -/
def mixedRun (k m : Nat) : TypeRun where
  state := { types := mixedTypes.take k }
  shapes := mixedShapes.take k
  results := [(mixedShapes.getD 0 (.base .typeVoid), TRef.heap 0),
    (mixedShapes.getD 1 (.base .typeVoid), .heap 1), (mixedShapes.getD 2 (.base .typeVoid), .heap 2),
    (mixedShapes.getD 3 (.base .typeVoid), .heap 3), (mixedShapes.getD 4 (.base .typeVoid), .heap 4),
    (mixedShapes.getD 5 (.base .typeVoid), .heap 5),
    (mixedShapes.getD 5 (.base .typeVoid), .heap 5)].take m

/-- The request for the last one. -/
def mixedFunc : TReq := .func (.base .typeInt) [some (.heap 3), some (.base .typeInt)]

theorem getElem?_of_take {α : Type} {l : List α} {k i : Nat} {a : α} (h : (l.take k)[i]? = some a) :
    l[i]? = some a := by
  rw [List.getElem?_take] at h
  split at h
  · exact h
  · cases h

/-- A type that is no function is found again. -/
theorem foundAgain_of_kind {types : List CUPType} {i : Nat}
    (h : ∀ ptr, types[i]? = some ptr → ptr.cuptype ≠ .typeFunction) : FoundAgain types (.heap i) :=
  fun ptr hp hk => absurd hk (h ptr hp)

theorem cleanReq_mixedFunc (k m : Nat) : CleanReq (mixedRun k m) mixedFunc := by
  refine ⟨fun t ht => ?_, fun i ptr sh known hp hk hs _ => ?_⟩
  · simp only [List.mem_cons, Option.some.injEq, List.not_mem_nil, or_false] at ht
    rcases ht with rfl | rfl
    · refine foundAgain_of_kind fun ptr hp => ?_
      cases getElem?_of_take hp
      decide
    · trivial
  · have hp := getElem?_of_take hp
    have hs := getElem?_of_take hs
    -- of the function types, one has another parameter, the other is the one that is asked for
    match i, hp, hs with
    | 0, hp, hs =>
      cases hp
      cases hs
      intro _ hset
      exact absurd (hset 0 _ rfl) (by decide)
    | 1, hp, _ | 2, hp, _ | 3, hp, _ | 4, hp, _ => cases hp; cases hk
    | 5, hp, hs =>
      cases hp
      cases hs
      intro _ _
      have hknown : ∀ j : Nat, ([some (.pointer (.func (.base .typeInt)
          [some (.base .typeUint8), none])), some (.base .typeInt)] : List (Option TShape))[j]? ≠
          some none := by
        intro j hj
        match j, hj with
        | 0, hj | 1, hj => cases hj
        | j + 2, hj => cases hj
      exact ⟨fun _ j hj => absurd hj (hknown j), fun _ j hj => absurd hj (hknown j)⟩
    | i + 6, hp, _ => cases hp

theorem typeReach_mixed : TypeReach staleMem CleanReq (mixedRun 6 7) := by
  have hfresh : TypeReach staleMem CleanReq (mixedRun 0 0) := .fresh rfl
  have hfunc : TypeReach staleMem CleanReq (mixedRun 1 1) := by
    refine .step (r := .func (.base .typeInt) [some (.base .typeUint8), none]) hfresh ?_ ?_ rfl
    · refine ⟨by decide, rfl, fun t ht => ?_⟩
      simp only [List.mem_cons, Option.some.injEq, List.not_mem_nil, or_false, reduceCtorEq] at ht
      rw [ht]
      exact ⟨rfl, by decide⟩
    · refine ⟨fun t ht => ?_, fun i ptr sh known hp => by cases hp⟩
      simp only [List.mem_cons, Option.some.injEq, List.not_mem_nil, or_false, reduceCtorEq] at ht
      rw [ht]
      trivial
  have harray : TypeReach staleMem CleanReq (mixedRun 2 2) :=
    .step (r := .array 3 (.base .typeInt)) hfunc ⟨by decide, rfl⟩ ⟨trivial, by decide⟩ rfl
  have hnested : TypeReach staleMem CleanReq (mixedRun 3 3) := by
    have hone : Valid 2 (.heap 1) := Nat.one_lt_two
    refine .step (r := .array 4 (.heap 1)) harray ⟨by decide, hone⟩ ⟨?_, by decide⟩ rfl
    refine foundAgain_of_kind fun ptr hp => ?_
    cases getElem?_of_take hp
    decide
  have hpointer : TypeReach staleMem CleanReq (mixedRun 4 4) := by
    have hzero : Valid 3 (.heap 0) := Nat.succ_pos 2
    refine .step (r := .pointer (.heap 0)) hnested hzero ⟨fun _ _ _ j hj => ?_, by decide⟩ rfl
    exact absurd hj (Nat.not_lt_zero j)
  have hmeta : TypeReach staleMem CleanReq (mixedRun 5 5) := by
    have hsize : 8 < 2 ^ 16 := by decide
    have hnew : ∀ ptr ∈ mixedTypes.take 4, ptr.cuptype = .typeMeta → ptr.size = 8 →
        ptr.data ≠ .gen 1 := by decide
    exact .step (r := .genMeta 8 1) hpointer hsize hnew rfl
  have hwf : ∀ n, 4 ≤ n → mixedFunc.WF n := by
    refine fun n hn => ⟨by decide, rfl, fun t ht => ?_⟩
    simp only [List.mem_cons, Option.some.injEq, List.not_mem_nil, or_false] at ht
    rcases ht with rfl | rfl
    · exact ⟨hn, by decide⟩
    · exact ⟨rfl, by decide⟩
  have hlast : TypeReach staleMem CleanReq (mixedRun 6 6) :=
    .step hmeta (hwf 5 (by decide)) (cleanReq_mixedFunc 5 5) rfl
  exact .step hlast (hwf 6 (by decide)) (cleanReq_mixedFunc 6 6) rfl

theorem typeReach_canonical_mixed :
    Canonical (mixedRun 6 7) ∧ ∀ r : TReq, r.WF 6 → CleanReq (mixedRun 6 7) r →
      ∃ c', typeStep staleMem (mixedRun 6 7) r = some c' :=
  typeReach_canonical typeReach_mixed

/-- The table after a request for a pointer to `uint8`. -/
def pointerRun : TypeRun where
  state := { types := [⟨.typePointer, 8, 8, .element (.base .typeUint8)⟩] }
  shapes := [.pointer (.base .typeUint8)]
  results := [(.pointer (.base .typeUint8), .heap 0)]

theorem typeStep_pointer (mem : Nat → Nat → Slot) :
    typeStep mem ⟨{}, [], []⟩ (.pointer (.base .typeUint8)) = some pointerRun := rfl

/-- A second request for a pointer to `uint8` ends the process. -/
theorem not_canonical_pointer_twice :
    ¬ ∀ (mem : Nat → Nat → Slot) (c : TypeRun), TypeReach mem (fun _ _ => True) c →
      Canonical c ∧ ∀ r : TReq, r.WF c.state.types.length → ∃ c', typeStep mem c r = some c' := by
  intro hall
  have hreach : TypeReach (fun _ _ => .null) (fun _ _ => True) pointerRun :=
    .step (r := .pointer (.base .typeUint8)) (.fresh rfl) rfl trivial (typeStep_pointer _)
  obtain ⟨c', hc'⟩ := (hall _ _ hreach).2 (.pointer (.base .typeUint8)) rfl
  have hnone : typeStep (fun _ _ => .null) pointerRun (.pointer (.base .typeUint8)) = none := rfl
  rw [hnone] at hc'
  exact absurd hc' (by simp)

end Cup
