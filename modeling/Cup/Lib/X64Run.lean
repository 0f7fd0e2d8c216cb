/-
  Runs of x86-64 code with jumps. The code is a list of bytes, and a configuration has the offset
  of the next instruction in it.

  `Runs` follows the instructions from one configuration to another. A run of some code is also
  one of the code with more bytes behind it; it is there that further code takes over. `Straight`
  code has no jumps.
-/
import Mathlib.Logic.Relation
import Cup.Lib.X64Code

namespace Lib.X64

open Relation (ReflTransGen)

/-- The offset of the next instruction, the machine, and the state outside of it. -/
structure Config (σ : Type) where
  pc : Nat
  machine : Machine
  ext : σ

/-- At the offset `pc` the processor reads `i`; the next instruction is at `next`. -/
def Fetch (code : List UInt8) (pc : Nat) (i : Instr) (next : Nat) : Prop :=
  ∃ pre bytes post, code = pre ++ bytes ++ post ∧ Code bytes [i] ∧ pc = pre.length ∧
    next = (pre ++ bytes).length

theorem Fetch.append {code tail : List UInt8} {pc next : Nat} {i : Instr}
    (h : Fetch code pc i next) : Fetch (code ++ tail) pc i next := by
  obtain ⟨pre, bytes, post, rfl, hc, hpc, hnext⟩ := h
  exact ⟨pre, bytes, post ++ tail, by simp only [List.append_assoc], hc, hpc, hnext⟩

theorem Fetch.of_code {pre bytes : List UInt8} {i : Instr} (h : Code bytes [i]) :
    Fetch (pre ++ bytes) pre.length i (pre ++ bytes).length :=
  ⟨pre, bytes, [], (List.append_nil _).symm, h, rfl, rfl⟩

/-! ## Code without jumps -/

/-- The distance of a jump. -/
def Instr.distance : Instr → Option Int
  | jmp rel => some rel
  | jcc _ rel => some rel
  | _ => none

/-- The bytes are instructions that are no jumps. -/
inductive Straight : List UInt8 → Prop where
  | nil : Straight []
  | cons {b bytes : List UInt8} {i : Instr} : Code b [i] → i.distance = none → Straight bytes →
    Straight (b ++ bytes)

section Straight

variable {a b bytes : List UInt8} {i : Instr}

theorem Straight.append (h : Straight a) (h' : Straight b) : Straight (a ++ b) := by
  induction h with
  | nil => exact h'
  | cons hc hi _ ih =>
    rw [List.append_assoc]
    exact .cons hc hi ih

theorem Straight.of_code (hc : Code bytes [i]) (h : i.distance = none) : Straight bytes := by
  have hs : Straight (bytes ++ []) := .cons hc h .nil
  rwa [List.append_nil] at hs

/-- An instruction that goes on behind itself is no jump. -/
theorem Instr.distance_of_step {m m' : Machine} (h : i.step m = some m') : i.distance = none := by
  cases i with
  | jmp rel => cases h
  | jcc cc rel => cases h
  | _ => rfl

end Straight

/-! ## Runs -/

section Runs

variable {σ : Type} (ext : Reg → Machine → σ → Option (Machine × σ))

/-- One instruction: it goes on behind itself, or jumps by the distance it names. -/
inductive Step (code : List UInt8) : Config σ → Config σ → Prop where
  | next {pc next : Nat} {i : Instr} {m m' : Machine} {x x' : σ} :
      Fetch code pc i next → i.run ext m x = some (m', x') →
      Step code ⟨pc, m, x⟩ ⟨next, m', x'⟩
  | jmp {pc next target : Nat} {rel : Int} {m : Machine} {x : σ} :
      Fetch code pc (.jmp rel) next → (target : Int) = next + rel →
      Step code ⟨pc, m, x⟩ ⟨target, m, x⟩
  | taken {pc next target : Nat} {cc : Cond} {rel : Int} {m : Machine} {x : σ} {f : Flags} :
      Fetch code pc (.jcc cc rel) next → m.flags = some f → cc.holds f = true →
      (target : Int) = next + rel → Step code ⟨pc, m, x⟩ ⟨target, m, x⟩
  | passed {pc next : Nat} {cc : Cond} {rel : Int} {m : Machine} {x : σ} {f : Flags} :
      Fetch code pc (.jcc cc rel) next → m.flags = some f → cc.holds f = false →
      Step code ⟨pc, m, x⟩ ⟨next, m, x⟩

/-- Any number of instructions. -/
def Runs (code : List UInt8) : Config σ → Config σ → Prop := ReflTransGen (Step ext code)

variable {ext}

theorem Step.append {code tail : List UInt8} {c c' : Config σ} (h : Step ext code c c') :
    Step ext (code ++ tail) c c' := by
  cases h with
  | next hf hr => exact .next hf.append hr
  | jmp hf ht => exact .jmp hf.append ht
  | taken hf hm hc ht => exact .taken hf.append hm hc ht
  | passed hf hm hc => exact .passed hf.append hm hc

/-- More bytes behind the code do not matter to a run of it. -/
theorem Runs.append {code tail : List UInt8} {c c' : Config σ} (h : Runs ext code c c') :
    Runs ext (code ++ tail) c c' := by
  induction h with
  | refl => exact .refl
  | tail _ hs ih => exact ih.tail hs.append

theorem Runs.trans {code : List UInt8} {c c' c'' : Config σ} (h : Runs ext code c c')
    (h' : Runs ext code c' c'') : Runs ext code c c'' :=
  ReflTransGen.trans h h'

/-- Where code ends, one more instruction takes over. -/
theorem Runs.step {code bytes : List UInt8} {i : Instr} {c : Config σ} {m m' : Machine}
    {x : σ} (h : Runs ext code c ⟨code.length, m, x⟩) (hi : Code bytes [i])
    (hm : i.step m = some m') :
    Runs ext (code ++ bytes) c ⟨(code ++ bytes).length, m', x⟩ :=
  h.append.tail (.next (.of_code hi) (run_of_step hm))

end Runs

end Lib.X64
