/-
  Lines and columns of a text of bytes. A line ends with `\n`, `\r` or `\r\n`; the break is
  counted at its last character, so `\r\n` is one. Where a text may be cut without cutting a
  break, the counts of the parts add up.
-/
import Mathlib.Data.List.TakeWhile

namespace Lib.TextPosition

/-- A character of a line break. -/
def isBreak (c : UInt8) : Bool := c == 10 || c == 13

/-- The number of line breaks. -/
def lineBreaks : List UInt8 → Nat
  | [] => 0
  | c :: p => if c = 10 ∨ c = 13 ∧ p.head? ≠ some 10 then lineBreaks p + 1 else lineBreaks p

/-- The number of characters behind the last line break. -/
def lastLine (p : List UInt8) : Nat := (p.reverse.takeWhile fun c => !isBreak c).length

/-- No line break is cut between `p` and `q`. -/
def Cut (p q : List UInt8) : Prop := p.getLast? = some 13 → q.head? ≠ some 10

variable {p q : List UInt8}

theorem lineBreaks_append (h : Cut p q) : lineBreaks (p ++ q) = lineBreaks p + lineBreaks q := by
  induction p with
  | nil => exact (Nat.zero_add _).symm
  | cons c p ih =>
    have htail : Cut p q := by
      intro hlast
      refine h ?_
      cases p with
      | nil => cases hlast
      | cons d p => rw [List.getLast?_cons_cons, hlast]
    have hhead : (c = 10 ∨ c = 13 ∧ (p ++ q).head? ≠ some 10) ↔
        (c = 10 ∨ c = 13 ∧ p.head? ≠ some 10) := by
      cases p with
      | cons d p => rfl
      | nil =>
        refine or_congr_right (and_congr_right fun hc => ?_)
        have hq : q.head? ≠ some 10 := h (by rw [hc]; rfl)
        exact ⟨fun _ => by decide, fun _ => hq⟩
    rw [List.cons_append, lineBreaks, lineBreaks, ih htail]
    by_cases hc : c = 10 ∨ c = 13 ∧ p.head? ≠ some 10
    · rw [if_pos hc, if_pos (hhead.mpr hc)]
      omega
    · rw [if_neg hc, if_neg fun h => hc (hhead.mp h)]

theorem lineBreaks_plain (h : ∀ c ∈ p, ¬ isBreak c) : lineBreaks p = 0 := by
  induction p with
  | nil => rfl
  | cons c p ih =>
    have hc := h c List.mem_cons_self
    have hne : ¬ (c = 10 ∨ c = 13 ∧ p.head? ≠ some 10) := by
      rintro (rfl | ⟨rfl, -⟩)
      · exact hc rfl
      · exact hc rfl
    rw [lineBreaks, if_neg hne]
    exact ih fun d hd => h d (List.mem_cons_of_mem c hd)

/-- A text with a character of a break has a break. -/
theorem lineBreaks_pos {c : UInt8} (hc : c ∈ p) (hb : isBreak c) : 0 < lineBreaks p := by
  induction p with
  | nil => cases hc
  | cons d p ih =>
    rw [lineBreaks]
    by_cases hd : d = 10 ∨ d = 13 ∧ p.head? ≠ some 10
    · rw [if_pos hd]
      omega
    · rw [if_neg hd]
      rcases List.mem_cons.mp hc with rfl | hmem
      · -- a `\r` in front of a `\n`
        have h13 : c = 13 := by
          unfold isBreak at hb
          rw [Bool.or_eq_true, beq_iff_eq, beq_iff_eq] at hb
          exact hb.resolve_left fun h10 => hd (.inl h10)
        have h10 : p.head? = some 10 := by
          by_contra hne
          exact hd (.inr ⟨h13, hne⟩)
        obtain ⟨q, rfl⟩ := List.head?_eq_some_iff.mp h10
        rw [lineBreaks, if_pos (.inl rfl)]
        omega
      · exact ih hmem

theorem lastLine_append_plain (h : ∀ c ∈ q, ¬ isBreak c) :
    lastLine (p ++ q) = lastLine p + q.length := by
  have hq : ∀ c ∈ q.reverse, (!isBreak c) = true := by
    intro c hc
    have := h c (List.mem_reverse.mp hc)
    simpa using this
  unfold lastLine
  rw [List.reverse_append, List.takeWhile_append_of_pos hq, List.length_append, List.length_reverse]
  omega

/-- A break starts a line. -/
theorem lastLine_append_break {c : UInt8} (h : isBreak c) : lastLine (p ++ [c]) = 0 := by
  unfold lastLine
  rw [List.reverse_append]
  show (List.takeWhile (fun c => !isBreak c) (c :: p.reverse)).length = 0
  rw [List.takeWhile_cons_of_neg (by simpa using h)]
  rfl

end Lib.TextPosition
