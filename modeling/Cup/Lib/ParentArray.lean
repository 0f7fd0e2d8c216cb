/-
  Trees kept as an array of parents. Node 0 is the root; every other node has a smaller parent,
  so the way from a node to the root ends (`Path`), and a search along it finds the nearest node
  that has what is looked for.
-/
import Mathlib.Data.List.Basic

namespace Lib.ParentArray

/-- Each node other than the root has a smaller parent. -/
def Rooted (parents : List Nat) : Prop := ∀ i p, parents[i + 1]? = some p → p ≤ i

/-- The nodes from a node to the root. -/
inductive Path (parents : List Nat) : Nat → List Nat → Prop where
  | root : Path parents 0 [0]
  | step {i p : Nat} {l : List Nat} : parents[i + 1]? = some p → Path parents p l →
      Path parents (i + 1) ((i + 1) :: l)

variable {parents : List Nat}

/-- A new node below one that is there. -/
theorem Rooted.push (h : Rooted parents) {p : Nat} (hp : p < parents.length) :
    Rooted (parents ++ [p]) := by
  intro i q hq
  rcases Nat.lt_trichotomy (i + 1) parents.length with hlt | heq | hgt
  · rw [List.getElem?_append_left hlt] at hq
    exact h i q hq
  · rw [List.getElem?_append_right (by omega), heq, Nat.sub_self] at hq
    cases hq
    omega
  · rw [List.getElem?_eq_none (by rw [List.length_append, List.length_singleton]; omega)] at hq
    cases hq

theorem Rooted.path (h : Rooted parents) {t : Nat} (ht : t < parents.length) :
    ∃ l, Path parents t l := by
  induction t using Nat.strongRecOn with
  | ind t ih =>
    cases t with
    | zero => exact ⟨[0], .root⟩
    | succ i =>
      have hp : parents[i + 1]? = some parents[i + 1] := List.getElem?_eq_getElem ht
      have hle := h i _ hp
      obtain ⟨l, hl⟩ := ih parents[i + 1] (by omega) (by omega)
      exact ⟨_, .step hp hl⟩

/-- There is one way to the root. -/
theorem Path.unique {t : Nat} {l l' : List Nat} (h : Path parents t l) (h' : Path parents t l') :
    l = l' := by
  induction h generalizing l' with
  | root =>
    cases h'
    rfl
  | step hp _ ih =>
    cases h' with
    | step hp' hl' =>
      rw [hp] at hp'
      obtain rfl := Option.some.inj hp'
      rw [ih hl']

end Lib.ParentArray
