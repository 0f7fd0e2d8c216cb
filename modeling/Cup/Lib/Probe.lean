/-
  Linear probing in a table of slots that hold an entry number plus one, or 0 for a free slot.

  `Table home m t`: the entries `0, …, m - 1` were inserted in this order, each into the first
  free slot from its home slot on, with wrap-around. No slot is freed, so between the home of
  an entry and its slot there are only older entries. That keeps the search right up to a full
  table: `Table.find_eq` says that it finds the oldest entry that matches.
-/
import Mathlib.Algebra.Ring.Rat
import Mathlib.Tactic.Common
import Mathlib.Data.List.Count
import Mathlib.Data.List.Range

namespace Lib.Probe

/-- The first free slot among the `k` slots from `h` on. -/
def free (t : List Nat) : Nat → Nat → Option Nat
  | 0, _ => none
  | k + 1, h => if t[h % t.length]? = some 0 then some (h % t.length) else free t k (h + 1)

/-- The first entry that matches `p` among the `k` slots from `h` on, up to a free slot. -/
def find (t : List Nat) (p : Nat → Bool) : Nat → Nat → Option Nat
  | 0, _ => none
  | k + 1, h =>
    match t[h % t.length]? with
    | some (id + 1) => if p id then some id else find t p k (h + 1)
    | _ => none

/-- A table that `m` insertions filled. -/
structure Table (home : Nat → Nat) (m : Nat) (t : List Nat) : Prop where
  count : t.countP (· != 0) = m
  bound : ∀ {i id : Nat}, t[i]? = some (id + 1) → id < m
  placed : ∀ {id : Nat}, id < m → ∃ d < t.length, t[(home id + d) % t.length]? = some (id + 1) ∧
    ∀ d' < d, ∃ id' < id, t[(home id + d') % t.length]? = some (id' + 1)

variable {home : Nat → Nat} {m : Nat} {t : List Nat}

theorem Table.empty (home : Nat → Nat) (n : Nat) : Table home 0 (List.replicate n 0) where
  count := by simp
  bound h := by
    have := List.mem_of_getElem? h
    simp at this
  placed h := absurd h (Nat.not_lt_zero _)

/-- The table depends on the entries it holds only. -/
theorem Table.congr_home {home' : Nat → Nat} (hT : Table home m t)
    (h : ∀ id < m, home id = home' id) : Table home' m t where
  count := hT.count
  bound := hT.bound
  placed := fun {id} hid => by
    obtain ⟨d, hd, h₁, h₂⟩ := hT.placed hid
    rw [h id hid] at h₁ h₂
    exact ⟨d, hd, h₁, h₂⟩

/-! ## Free slots -/

/-- The first free slot, when one of the `k` slots is free. -/
theorem free_of_zero {k h d : Nat} (hd : d < k) (hz : t[(h + d) % t.length]? = some 0) :
    ∃ e ≤ d, free t k h = some ((h + e) % t.length) ∧ t[(h + e) % t.length]? = some 0 ∧
      ∀ e' < e, t[(h + e') % t.length]? ≠ some 0 := by
  induction k generalizing h d with
  | zero => omega
  | succ k ih =>
    unfold free
    by_cases h0 : t[h % t.length]? = some 0
    · exact ⟨0, by omega, by simp [h0], h0, by omega⟩
    · rw [if_neg h0]
      cases d with
      | zero => exact absurd hz h0
      | succ d =>
        have hz' : t[(h + 1 + d) % t.length]? = some 0 := by
          rw [show h + 1 + d = h + (d + 1) by omega]; exact hz
        obtain ⟨e, he, h₁, h₂, h₃⟩ := ih (by omega) hz'
        refine ⟨e + 1, by omega, ?_, ?_, ?_⟩
        · rw [h₁, show h + 1 + e = h + (e + 1) by omega]
        · rw [show h + (e + 1) = h + 1 + e by omega]; exact h₂
        · intro e' he'
          cases e' with
          | zero => exact h0
          | succ e' =>
            rw [show h + (e' + 1) = h + 1 + e' by omega]
            exact h₃ e' (by omega)

/-- Every slot is some number of steps behind `h`. -/
theorem exists_offset {n i : Nat} (h : Nat) (hi : i < n) : ∃ d < n, (h + d) % n = i := by
  refine ⟨(i + (n - h % n)) % n, Nat.mod_lt _ (by omega), ?_⟩
  have hh : h % n < n := Nat.mod_lt _ (by omega)
  have hsum : h % n + (i + (n - h % n)) = i + n := by omega
  rw [Nat.add_mod_mod, Nat.add_mod, ← Nat.mod_add_mod, Nat.add_mod_mod, Nat.mod_mod, hsum,
    Nat.add_mod_right, Nat.mod_eq_of_lt hi]

/-- A table with room has a free slot. -/
theorem Table.exists_zero (hT : Table home m t) (hm : m < t.length) :
    ∃ i < t.length, t[i]? = some 0 := by
  by_contra hno
  have hall : ∀ a ∈ t, (a != 0) = true := by
    intro a ha
    obtain ⟨i, hi, he⟩ := List.mem_iff_getElem.mp ha
    rw [bne_iff_ne]
    rintro rfl
    exact hno ⟨i, hi, by rw [List.getElem?_eq_getElem hi, he]⟩
  have := List.countP_eq_length.mpr hall
  rw [hT.count] at this
  omega

/-! ## Insertion -/

theorem Table.free_isSome (hT : Table home m t) (hm : m < t.length) (h : Nat) :
    ∃ d < t.length, free t t.length h = some ((h + d) % t.length) ∧
      t[(h + d) % t.length]? = some 0 ∧ ∀ d' < d, ∃ id < m, t[(h + d') % t.length]? = some (id + 1) := by
  obtain ⟨i, hi, hz⟩ := hT.exists_zero hm
  obtain ⟨d₀, hd₀, rfl⟩ := exists_offset h hi
  obtain ⟨d, hd, h₁, h₂, h₃⟩ := free_of_zero hd₀ hz
  refine ⟨d, by omega, h₁, h₂, fun d' hd' => ?_⟩
  have hlt : (h + d') % t.length < t.length := Nat.mod_lt _ (by omega)
  have hne := h₃ d' hd'
  rw [List.getElem?_eq_getElem hlt] at hne ⊢
  cases hv : t[(h + d') % t.length] with
  | zero => exact absurd (by rw [hv]) hne
  | succ id => exact ⟨id, hT.bound (by rw [List.getElem?_eq_getElem hlt, hv]), rfl⟩

/-- Inserting the next entry into the first free slot from its home on. -/
theorem Table.insert (hT : Table home m t) {d : Nat} (hlen : d < t.length)
    (hz : t[(home m + d) % t.length]? = some 0)
    (hd : ∀ d' < d, ∃ id < m, t[(home m + d') % t.length]? = some (id + 1)) :
    Table home (m + 1) (t.set ((home m + d) % t.length) (m + 1)) := by
  have hi : (home m + d) % t.length < t.length := Nat.mod_lt _ (by omega)
  have hv : t[(home m + d) % t.length] = 0 := by
    rw [List.getElem?_eq_getElem hi] at hz
    exact Option.some.inj hz
  have hkeep : ∀ {i id : Nat}, t[i]? = some (id + 1) →
      (t.set ((home m + d) % t.length) (m + 1))[i]? = some (id + 1) := by
    intro i id h
    rw [List.getElem?_set_ne]
    · exact h
    · rintro rfl
      rw [hz] at h
      exact absurd h (by simp)
  refine ⟨?_, ?_, ?_⟩
  · rw [List.countP_set hi, hv, hT.count]
    simp
  · intro i id h
    by_cases he : (home m + d) % t.length = i
    · rw [← he, List.getElem?_set_self hi] at h
      have : m + 1 = id + 1 := Option.some.inj h
      omega
    · rw [List.getElem?_set_ne he] at h
      have := hT.bound h
      omega
  · intro id hid
    rw [List.length_set]
    rcases Nat.lt_succ_iff_lt_or_eq.mp hid with hid | rfl
    · obtain ⟨e, he, h₁, h₂⟩ := hT.placed hid
      refine ⟨e, he, hkeep h₁, fun d' hd' => ?_⟩
      obtain ⟨id', hid', h'⟩ := h₂ d' hd'
      exact ⟨id', hid', hkeep h'⟩
    · refine ⟨d, hlen, ?_, fun d' hd' => ?_⟩
      · rw [List.getElem?_set_self hi]
      · obtain ⟨id', hid', h'⟩ := hd d' hd'
        exact ⟨id', hid', hkeep h'⟩

/-! ## Search -/

/-- The search passes over the entries that do not match. -/
theorem find_of_chain {p : Nat → Bool} {k h d id : Nat} (hk : d < k)
    (hid : t[(h + d) % t.length]? = some (id + 1)) (hp : p id)
    (hd : ∀ d' < d, ∃ id', t[(h + d') % t.length]? = some (id' + 1) ∧ ¬ p id') :
    find t p k h = some id := by
  induction d generalizing k h with
  | zero =>
    obtain ⟨k, rfl⟩ : ∃ k', k = k' + 1 := ⟨k - 1, by omega⟩
    unfold find
    rw [show h % t.length = (h + 0) % t.length by simp, hid]
    simp [hp]
  | succ d ih =>
    obtain ⟨k, rfl⟩ : ∃ k', k = k' + 1 := ⟨k - 1, by omega⟩
    obtain ⟨id', h₁, h₂⟩ := hd 0 (by omega)
    unfold find
    rw [show h % t.length = (h + 0) % t.length by simp, h₁]
    simp only [h₂, if_false, Bool.false_eq_true]
    refine ih (by omega) ?_ fun d' hd' => ?_
    · rw [show h + 1 + d = h + (d + 1) by omega]; exact hid
    · rw [show h + 1 + d' = h + (d' + 1) by omega]; exact hd _ (by omega)

theorem find_of_none {p : Nat → Bool} {k h : Nat} (hp : ∀ {i id : Nat}, t[i]? = some (id + 1) → ¬ p id) :
    find t p k h = none := by
  induction k generalizing h with
  | zero => rfl
  | succ k ih =>
    unfold find
    split
    · next id hid => rw [if_neg (hp hid), ih]
    · rfl

/-- From the home of the matching entries, the search finds the oldest of them. -/
theorem Table.find_eq (hT : Table home m t) {p : Nat → Bool} {h : Nat}
    (hp : ∀ id < m, p id → home id = h) :
    find t p t.length h = (List.range m).find? p := by
  cases hf : (List.range m).find? p with
  | none =>
    refine find_of_none fun {i id} hid hpid => ?_
    have := List.find?_eq_none.mp hf id (List.mem_range.mpr (hT.bound hid))
    exact this hpid
  | some id =>
    obtain ⟨hpid, hmem, hfirst⟩ := List.find?_range_eq_some.mp hf
    have hid := List.mem_range.mp hmem
    obtain ⟨d, hd, h₁, h₂⟩ := hT.placed hid
    rw [hp id hid hpid] at h₁ h₂
    refine find_of_chain hd h₁ hpid fun d' hd' => ?_
    obtain ⟨id', hlt, h'⟩ := h₂ d' hd'
    exact ⟨id', h', by simpa using hfirst id' hlt⟩

end Lib.Probe
