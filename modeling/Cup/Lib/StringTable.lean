/-
  NUL-terminated strings and tables of them. A table starts with a NUL, and its strings follow
  one another; a string is named by where it starts. Whoever runs over the strings and counts
  their characters knows where each of them is (`drop_table`).
-/
import Mathlib.Data.List.TakeWhile
import Mathlib.Tactic.Common

namespace Lib.StringTable

/-- The characters of a string before its NUL. -/
structure CString where
  chars : List UInt8
  noNul : ∀ c ∈ chars, c ≠ 0
  deriving DecidableEq

namespace CString

/-- The string that starts with `l`, up to the first NUL. -/
def ofBytes (l : List UInt8) : CString :=
  ⟨l.takeWhile (· ≠ 0), fun c hc => by
    have h := List.mem_takeWhile_imp hc
    simpa using h⟩

@[simp] theorem ofBytes_chars (l : List UInt8) : (ofBytes l).chars = l.takeWhile (· ≠ 0) := rfl

/-- The empty string. -/
def empty : CString := ⟨[], fun _ h => (by cases h)⟩

instance : Inhabited CString := ⟨empty⟩

/-- `strlen(s) + 1`. -/
def size (s : CString) : Nat := s.chars.length + 1

/-- The characters with their NUL. -/
def bytes (s : CString) : List UInt8 := s.chars ++ [0]

@[simp] theorem bytes_length (s : CString) : s.bytes.length = s.size := by
  rw [bytes, List.length_append, List.length_singleton, size]

theorem size_pos (s : CString) : 0 < s.size := Nat.succ_pos _

@[ext] theorem ext {s t : CString} (h : s.chars = t.chars) : s = t := by
  cases s
  cases t
  cases h
  rfl

theorem ofBytes_bytes (s : CString) (rest : List UInt8) : ofBytes (s.bytes ++ rest) = s := by
  have hall : ∀ c ∈ s.chars, decide (c ≠ 0) = true := fun c hc => decide_eq_true (s.noNul c hc)
  apply ext
  rw [ofBytes_chars, bytes, List.append_assoc, List.takeWhile_append_of_pos hall]
  exact List.append_nil _

/-- A string is read, where it ends before the bytes do. -/
def read (l : List UInt8) : Option CString := if 0 ∈ l then some (ofBytes l) else none

theorem read_bytes (s : CString) (rest : List UInt8) : read (s.bytes ++ rest) = some s := by
  have hnul : 0 ∈ s.bytes ++ rest :=
    List.mem_append_left _ (List.mem_append_right _ (List.mem_singleton_self _))
  rw [read, if_pos hnul, ofBytes_bytes]

/-- A string is read exactly where its bytes stand. -/
theorem read_eq_some {l : List UInt8} {s : CString} :
    read l = some s ↔ ∃ rest, l = s.bytes ++ rest := by
  constructor
  · intro h
    unfold read at h
    by_cases hnul : 0 ∈ l
    · rw [if_pos hnul] at h
      obtain rfl := Option.some.inj h
      have hsplit := List.takeWhile_append_dropWhile (p := (· ≠ 0)) (l := l)
      cases hdrop : l.dropWhile (· ≠ 0) with
      | nil =>
        have hall := List.dropWhile_eq_nil_iff.mp hdrop 0 hnul
        exact absurd rfl (of_decide_eq_true hall)
      | cons c rest =>
        have hne : l.dropWhile (· ≠ 0) ≠ [] := by
          rw [hdrop]
          exact List.cons_ne_nil c rest
        have hc : c = 0 := by
          have hhead := List.head_dropWhile_not _ hne
          simp only [hdrop, List.head_cons] at hhead
          simpa using hhead
        refine ⟨rest, ?_⟩
        rw [hdrop, hc] at hsplit
        rw [bytes, ofBytes_chars, List.append_assoc]
        exact hsplit.symm
    · rw [if_neg hnul] at h
      cases h
  · rintro ⟨rest, rfl⟩
    exact read_bytes s rest

end CString

/-- A NUL, then the strings. -/
def table (names : List CString) : List UInt8 := 0 :: names.flatMap CString.bytes

/-- Where each string starts, the first at `pos`. -/
def offsets : Nat → List CString → List Nat
  | _, [] => []
  | pos, s :: ss => pos :: offsets (pos + s.size) ss

variable {names : List CString} {s : CString} {i pos : Nat}

@[simp] theorem offsets_length (pos : Nat) : (offsets pos names).length = names.length := by
  induction names generalizing pos with
  | nil => rfl
  | cons s ss ih => rw [offsets, List.length_cons, List.length_cons, ih]

/-- From where a string starts, its bytes follow. -/
theorem drop_flatMap (h : names[i]? = some s) :
    ∃ o rest, (offsets pos names)[i]? = some (pos + o) ∧
      (names.flatMap CString.bytes).drop o = s.bytes ++ rest ∧
      o < (names.flatMap CString.bytes).length := by
  induction names generalizing i pos with
  | nil => cases h
  | cons t ss ih =>
    cases i with
    | zero =>
      obtain rfl := Option.some.inj h
      refine ⟨0, ss.flatMap CString.bytes, rfl, rfl, ?_⟩
      rw [List.flatMap_cons, List.length_append, CString.bytes_length]
      exact Nat.add_pos_left t.size_pos _
    | succ i =>
      obtain ⟨o, rest, hoff, hdrop, hlt⟩ := ih h
      refine ⟨t.size + o, rest, ?_, ?_, ?_⟩
      · rw [offsets, List.getElem?_cons_succ, hoff, Nat.add_assoc]
      · rw [List.flatMap_cons, ← CString.bytes_length, List.drop_append, Nat.add_sub_cancel_left,
          List.drop_of_length_le (Nat.le_add_right _ _), List.nil_append, hdrop]
      · rw [List.flatMap_cons, List.length_append, CString.bytes_length]
        omega

/-- A string of a table is read where the offsets say it is. -/
theorem drop_table (h : names[i]? = some s) :
    ∃ o rest, (offsets 1 names)[i]? = some o ∧ (table names).drop o = s.bytes ++ rest ∧
      o < (table names).length := by
  obtain ⟨o, rest, hoff, hdrop, hlt⟩ := drop_flatMap h
  refine ⟨1 + o, rest, hoff, ?_, ?_⟩
  · rw [table, Nat.add_comm, List.drop_succ_cons, hdrop]
  · rw [table, List.length_cons]
    omega

end Lib.StringTable
