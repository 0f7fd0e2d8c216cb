/-
  Lists brought into another order through arrays of indices: the stable order that puts the
  entries with a property first, and the inverse of an order, made by assigning each position to
  the index that stands there.
-/
import Mathlib.Data.List.Nodup
import Mathlib.Data.List.Range
import Mathlib.Tactic.Common

namespace Lib.Reorder

variable {α β γ : Type*}

/-! ## Stable order -/

/-- The entries with the property, then the others, each in their order. -/
def stable (p : α → Bool) (l : List α) : List α := l.filter p ++ l.filter fun a => !p a

variable {p : α → Bool} {l : List α}

theorem stable_perm (p : α → Bool) (l : List α) : (stable p l).Perm l := List.filter_append_perm p l

theorem filter_stable (p : α → Bool) (l : List α) : (stable p l).filter p = l.filter p := by
  rw [stable, List.filter_append, List.filter_filter, List.filter_filter]
  have hself : (l.filter fun a => p a && p a) = l.filter p := by
    congr 1
    funext a
    exact Bool.and_self _
  have hnil : (l.filter fun a => p a && !p a) = [] := by
    rw [List.filter_eq_nil_iff]
    intro a _
    rw [Bool.and_not_self]
    exact Bool.false_ne_true
  rw [hself, hnil, List.append_nil]

theorem filter_not_stable (p : α → Bool) (l : List α) :
    ((stable p l).filter fun a => !p a) = l.filter fun a => !p a := by
  rw [stable, List.filter_append, List.filter_filter, List.filter_filter]
  have hself : (l.filter fun a => !p a && !p a) = l.filter fun a => !p a := by
    congr 1
    funext a
    exact Bool.and_self _
  have hnil : (l.filter fun a => !p a && p a) = [] := by
    rw [List.filter_eq_nil_iff]
    intro a _
    rw [Bool.not_and_self]
    exact Bool.false_ne_true
  rw [hself, hnil, List.nil_append]

theorem stable_stable (p : α → Bool) (l : List α) : stable p (stable p l) = stable p l := by
  rw [stable, filter_stable, filter_not_stable]
  rfl

/-- No entry without the property stands before one with it. -/
theorem stable_pairwise (p : α → Bool) (l : List α) :
    (stable p l).Pairwise fun a b => p b = true → p a = true := by
  rw [stable, List.pairwise_append]
  refine ⟨List.pairwise_of_forall_mem_list fun a ha b _ _ => List.of_mem_filter ha,
    List.pairwise_of_forall_mem_list fun a _ b hb h => ?_,
    fun a ha b _ _ => List.of_mem_filter ha⟩
  have hnot := List.of_mem_filter hb
  rw [h] at hnot
  cases hnot

/-- The entries at the indices in stable order are the entries in stable order. -/
theorem map_stable (f : β → α) (l : List β) :
    (stable (fun b => p (f b)) l).map f = stable p (l.map f) := by
  rw [stable, stable, List.map_append, List.filter_map, List.filter_map]
  rfl

/-- A list in stable order stays as it is. -/
theorem stable_of_pairwise (h : l.Pairwise fun a b => p b = true → p a = true) :
    stable p l = l := by
  induction l with
  | nil => rfl
  | cons a l ih =>
    obtain ⟨hhead, htail⟩ := List.pairwise_cons.mp h
    by_cases ha : p a = true
    · have hnot : ((a :: l).filter fun c => !p c) = l.filter fun c => !p c :=
        List.filter_cons_of_neg (by rw [ha]; exact Bool.false_ne_true)
      rw [stable, List.filter_cons_of_pos ha, hnot, List.cons_append]
      exact congrArg (a :: ·) (ih htail)
    · -- nothing behind `a` has the property either
      have hall : ∀ c ∈ a :: l, ¬ p c = true := by
        intro c hc
        rcases List.mem_cons.mp hc with rfl | hc
        · exact ha
        · exact fun hp => ha (hhead c hc hp)
      have hneg : ∀ c ∈ a :: l, (!p c) = true := fun c hc => by
        rw [Bool.eq_false_iff.mpr (hall c hc)]
        rfl
      rw [stable, List.filter_eq_nil_iff.mpr hall, List.filter_eq_self.mpr hneg, List.nil_append]

/-- The entries at all indices are the list. -/
theorem map_getD_range (l : List α) (d : α) :
    (List.range l.length).map (fun i => l.getD i d) = l := by
  apply List.ext_getElem?
  intro i
  rw [List.getElem?_map]
  by_cases hi : i < l.length
  · rw [List.getElem?_range hi, List.getElem?_eq_getElem hi, Option.map_some,
      List.getD_eq_getElem?_getD, List.getElem?_eq_getElem hi, Option.getD_some]
  · rw [List.getElem?_eq_none (by rw [List.length_range]; omega),
      List.getElem?_eq_none (Nat.le_of_not_lt hi)]
    rfl

/-! ## Groups -/

/-- Groups that are laid behind one another, one for each key: the entries of a key are its
group. -/
theorem filter_flatMap [DecidableEq γ] {key : α → γ} {f : γ → List α} {ks : List γ}
    (hnodup : ks.Nodup) (hkey : ∀ k, ∀ a ∈ f k, key a = k) (k : γ) :
    ((ks.flatMap f).filter fun a => decide (key a = k)) = if k ∈ ks then f k else [] := by
  induction ks with
  | nil => rfl
  | cons c ks ih =>
    obtain ⟨hnot, hrest⟩ := List.nodup_cons.mp hnodup
    rw [List.flatMap_cons, List.filter_append, ih hrest]
    by_cases hc : k = c
    · subst hc
      have hall : ((f k).filter fun a => decide (key a = k)) = f k :=
        List.filter_eq_self.mpr fun a ha => decide_eq_true (hkey k a ha)
      rw [hall, if_neg hnot, if_pos List.mem_cons_self, List.append_nil]
    · have hnone : ((f c).filter fun a => decide (key a = k)) = [] := by
        rw [List.filter_eq_nil_iff]
        intro a ha heq
        exact hc ((of_decide_eq_true heq).symm.trans (hkey c a ha))
      have hmem : k ∈ c :: ks ↔ k ∈ ks := ⟨fun h => (List.mem_cons.mp h).resolve_left hc,
        List.mem_cons_of_mem c⟩
      rw [hnone, List.nil_append]
      simp only [hmem]

/-! ## Inverse -/

/-- `acc` with position `i` assigned to the index that `order[i]` is, for every `i` in turn. -/
def assign (key : γ → Nat) (val : Nat → β) (acc : List β) (order : List γ) (k : Nat) : List β :=
  (order.zipIdx k).foldl (fun m e => m.set (key e.1) (val e.2)) acc

variable {key : γ → Nat} {val : Nat → β} {acc : List β} {order : List γ} {k i : Nat} {c : γ}

theorem assign_cons : assign key val acc (c :: order) k =
    assign key val (acc.set (key c) (val k)) order (k + 1) := rfl

@[simp] theorem assign_length : (assign key val acc order k).length = acc.length := by
  induction order generalizing acc k with
  | nil => rfl
  | cons c order ih => rw [assign_cons, ih, List.length_set]

theorem assign_of_not_mem {x : Nat} (h : ∀ c ∈ order, key c ≠ x) :
    (assign key val acc order k)[x]? = acc[x]? := by
  induction order generalizing acc k with
  | nil => rfl
  | cons c order ih =>
    rw [assign_cons, ih fun d hd => h d (List.mem_cons_of_mem _ hd),
      List.getElem?_set_ne (h c List.mem_cons_self)]

/-- Each index that occurs once gets its position. -/
theorem assign_get (hnodup : (order.map key).Nodup) (hlt : ∀ c ∈ order, key c < acc.length)
    (h : order[i]? = some c) : (assign key val acc order k)[key c]? = some (val (k + i)) := by
  induction order generalizing acc k i with
  | nil => cases h
  | cons d order ih =>
    rw [List.map_cons, List.nodup_cons] at hnodup
    rw [assign_cons]
    cases i with
    | zero =>
      obtain rfl := Option.some.inj h
      have hout : ∀ e ∈ order, key e ≠ key d := fun e he heq =>
        hnodup.1 (List.mem_map.mpr ⟨e, he, heq⟩)
      rw [assign_of_not_mem hout,
        List.getElem?_set_self (hlt _ List.mem_cons_self), Nat.add_zero]
    | succ i =>
      have hlen : (acc.set (key d) (val k)).length = acc.length := List.length_set
      rw [ih hnodup.2 (fun e he => hlen ▸ hlt e (List.mem_cons_of_mem _ he)) h, Nat.add_assoc,
        Nat.add_comm 1]

end Lib.Reorder
