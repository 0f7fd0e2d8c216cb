/-
  The targets of the jumps in x86-64 code that is read from its first byte on.

  `Targets`: the bytes are instructions one after the other, and their jumps lead to the offsets of
  the list. Bytes are read in one way only (`Targets.unique`), so that a jump that is found where
  the code was put together is one of every reading.
-/
import Cup.Lib.X64Stack
import Cup.Lib.X64Run

namespace Lib.X64

/-- The bytes, of which the first one is at the offset `at_`, are instructions whose jumps lead to
    the offsets `ts`. -/
inductive Targets : Nat → List UInt8 → List Int → Prop where
  | nil {at_ : Nat} : Targets at_ [] []
  | next {at_ : Nat} {b bytes : List UInt8} {i : Instr} {ts : List Int} : Code b [i] →
    i.distance = none → Targets (at_ + b.length) bytes ts → Targets at_ (b ++ bytes) ts
  | jump {at_ : Nat} {b bytes : List UInt8} {i : Instr} {rel : Int} {ts : List Int} : Code b [i] →
    i.distance = some rel → Targets (at_ + b.length) bytes ts →
    Targets at_ (b ++ bytes) (((at_ + b.length : Nat) + rel) :: ts)

section Targets

variable {at_ : Nat} {a b bytes x y : List UInt8} {i i' : Instr} {rel : Int} {ts us : List Int}

/-- The first instruction of bytes is read in one way. -/
theorem Code.unique (h : Code a [i]) (h' : Code b [i']) (he : a ++ x = b ++ y) :
    a = b ∧ i = i' ∧ x = y := by
  have hd := h x
  have hd' := h' y
  rw [he] at hd
  obtain ⟨hi, hrest⟩ := Prod.mk.inj (Option.some.inj (hd.symm.trans hd'))
  subst hrest
  exact ⟨List.append_cancel_right he, List.singleton_inj.mp hi, rfl⟩

theorem Code.append_ne_nil (h : Code b [i]) : [] ≠ b ++ bytes := by
  intro he
  have hpos := h.length_pos
  rw [(List.append_eq_nil_iff.mp he.symm).1] at hpos
  exact absurd hpos (Nat.lt_irrefl 0)

/-- Bytes are read in one way. -/
theorem Targets.unique (h : Targets at_ bytes ts) (h' : Targets at_ bytes us) : ts = us := by
  induction h generalizing us with
  | nil =>
    generalize hb : ([] : List UInt8) = bytes at h'
    cases h' with
    | nil => rfl
    | next hc _ _ => exact absurd hb hc.append_ne_nil
    | jump hc _ _ => exact absurd hb hc.append_ne_nil
  | @next at_ b bytes i ts hc hi _ ih =>
    generalize hb : b ++ bytes = all at h'
    cases h' with
    | nil => exact absurd hb.symm hc.append_ne_nil
    | next hc' _ hrest =>
      obtain ⟨rfl, -, rfl⟩ := hc.unique hc' hb
      exact ih hrest
    | jump hc' hi' _ =>
      obtain ⟨-, rfl, -⟩ := hc.unique hc' hb
      rw [hi] at hi'
      cases hi'
  | @jump at_ b bytes i rel ts hc hi _ ih =>
    generalize hb : b ++ bytes = all at h'
    cases h' with
    | nil => exact absurd hb.symm hc.append_ne_nil
    | next hc' hi' _ =>
      obtain ⟨-, rfl, -⟩ := hc.unique hc' hb
      rw [hi] at hi'
      cases hi'
    | jump hc' hi' hrest =>
      obtain ⟨rfl, rfl, rfl⟩ := hc.unique hc' hb
      rw [Option.some.inj (hi.symm.trans hi'), ih hrest]

theorem Targets.append (h : Targets at_ a ts) (h' : Targets (at_ + a.length) b us) :
    Targets at_ (a ++ b) (ts ++ us) := by
  induction h with
  | nil => exact h'
  | next hc hi _ ih =>
    rw [List.length_append, ← Nat.add_assoc] at h'
    rw [List.append_assoc]
    exact .next hc hi (ih h')
  | jump hc hi _ ih =>
    rw [List.length_append, ← Nat.add_assoc] at h'
    rw [List.append_assoc]
    exact .jump hc hi (ih h')

theorem Straight.targets (h : Straight bytes) : Targets at_ bytes [] := by
  induction h generalizing at_ with
  | nil => exact .nil
  | cons hc hi _ ih => exact .next hc hi ih

theorem targets_jump (hc : Code b [i]) (hi : i.distance = some rel) :
    Targets at_ b [(at_ + b.length : Nat) + rel] := by
  have h : Targets at_ (b ++ []) _ := .jump hc hi .nil
  rwa [List.append_nil] at h

/-- Code without jumps, and a jump behind it. -/
theorem Straight.targets_jump (h : Straight a) (hc : Code b [i]) (hi : i.distance = some rel) :
    Targets at_ (a ++ b) [(at_ + (a ++ b).length : Nat) + rel] := by
  have hj : Targets (at_ + a.length) b _ := X64.targets_jump hc hi
  rw [List.length_append, ← Nat.add_assoc]
  exact h.targets.append hj

end Targets

end Lib.X64
