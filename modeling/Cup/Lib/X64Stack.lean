/-
  Code whose stack can be read off the code. An `Op` is an instruction with its bytes;
  `Instr.words` counts the words on the stack behind it. A `Place` of the code is an offset with
  the words that are on the stack there, and code is `Closed` when its jumps lead to places with
  as many words as they come from.

  `place_of_runs`: wherever a run inside such code comes, RSP is below its first value by the
  words of the place, and RBP is what it was.
-/
import Cup.Lib.X64Run

namespace Lib.X64

open Relation (ReflTransGen)

/-! ## What an instruction writes -/

/-- The register that an instruction names as its destination. -/
def Instr.dest : Instr → Option Reg
  | mov dst _ | movImm dst _ | load dst _ _ | lea8 dst _ _ | xor32 dst _ | shl dst _
  | setcc _ dst | movzx dst _ | pop dst => some dst
  | loadAbs _ => some .rax
  | alu op dst _ | aluImm op dst _ => if op = .cmp then none else some dst
  | leave => some .rbp
  | store .. | storeImm .. | addMem .. | storeAbs _ | test .. | push _ | call _ | ret
  | jmp _ | jcc .. | nop => none

/-- Whether an instruction moves RSP without naming it. -/
def Instr.usesStack : Instr → Bool
  | push _ | pop _ | leave | ret => true
  | _ => false

theorem Machine.alu_regs {m : Machine} {op : Alu} {dst r : Reg} {b : Word}
    (h : op ≠ .cmp → r ≠ dst) : (m.alu op dst b).regs r = m.regs r := by
  cases op with
  | cmp => rfl
  | add => exact Machine.set_regs_of_ne (h (by decide))
  | sub => exact Machine.set_regs_of_ne (h (by decide))
  | imul => exact Machine.set_regs_of_ne (h (by decide))

/-- An instruction leaves every register alone that it does not name. -/
theorem Instr.step_regs {i : Instr} {m m' : Machine} {r : Reg} (h : i.step m = some m')
    (hr : i.dest ≠ some r) (hsp : r = .rsp → i.usesStack = false) : m'.regs r = m.regs r := by
  have hset : ∀ {dst : Reg} {v : Word}, some dst ≠ some r → (m.set dst v).regs r = m.regs r :=
    fun hne => Machine.set_regs_of_ne fun he => hne (congrArg some he.symm)
  have halu : ∀ {op : Alu} {dst : Reg} {b : Word},
      (if op = .cmp then none else some dst) ≠ some r → (m.alu op dst b).regs r = m.regs r := by
    intro op dst b hne
    refine Machine.alu_regs fun hop he => ?_
    rw [if_neg hop, he] at hne
    exact hne rfl
  cases i with
  | mov dst src => cases h; exact hset hr
  | movImm dst imm => cases h; exact hset hr
  | load dst base disp => cases h; exact hset hr
  | lea8 dst base index => cases h; exact hset hr
  | xor32 dst src => cases h; exact hset hr
  | shl dst n => cases h; exact hset hr
  | movzx dst src => cases h; exact hset hr
  | loadAbs addr => cases h; exact hset hr
  | setcc cc dst =>
    obtain ⟨f, -, rfl⟩ := Option.map_eq_some_iff.mp h
    exact hset hr
  | alu op dst src => cases h; exact halu hr
  | aluImm op dst imm => cases h; exact halu hr
  | store base disp src => cases h; rfl
  | storeImm base disp imm => cases h; rfl
  | addMem base disp src => cases h; rfl
  | storeAbs addr => cases h; rfl
  | test a b => cases h; rfl
  | nop => cases h; rfl
  | push s =>
    cases h
    exact Machine.set_regs_of_ne fun he => by cases hsp he
  | pop s =>
    cases h
    have hne : r ≠ .rsp := fun he => by cases hsp he
    exact (Machine.set_regs_of_ne fun he => hr (congrArg some he.symm)).trans
      (Machine.set_regs_of_ne hne)
  | leave =>
    cases h
    have hne : r ≠ .rsp := fun he => by cases hsp he
    exact (Machine.set_regs_of_ne fun he => hr (congrArg some he.symm)).trans
      (Machine.set_regs_of_ne hne)
  | call s => cases h
  | ret => cases h
  | jmp rel => cases h
  | jcc cc rel => cases h

/-! ## Words on the stack -/

/-- The words on the stack behind an instruction, of `d` in front of it. There are none where
    RSP or RBP change in any other way than by whole words. -/
def Instr.words (i : Instr) (d : Nat) : Option Nat :=
  match i with
  | push _ => some (d + 1)
  | pop r => if r = .rsp ∨ r = .rbp ∨ d = 0 then none else some (d - 1)
  | i =>
    if i = .aluImm .sub .rsp 8 then some (d + 1)
    else if i = .aluImm .add .rsp 8 then if d = 0 then none else some (d - 1)
    else if i.usesStack ∨ i.dest = some .rsp ∨ i.dest = some .rbp then none
    else some d

/-- The cases of `words`. -/
theorem Instr.words_cases {i : Instr} {d e : Nat} (h : i.words d = some e) :
    (∃ r, i = .push r ∧ e = d + 1) ∨ (∃ r, i = .pop r ∧ r ≠ .rsp ∧ r ≠ .rbp ∧ d = e + 1) ∨
      (i = .aluImm .sub .rsp 8 ∧ e = d + 1) ∨ (i = .aluImm .add .rsp 8 ∧ d = e + 1) ∨
      (i.usesStack = false ∧ i.dest ≠ some .rsp ∧ i.dest ≠ some .rbp ∧ e = d) := by
  unfold words at h
  split at h
  · exact .inl ⟨_, rfl, (Option.some.inj h).symm⟩
  · split at h
    · cases h
    · rename_i hn
      cases h
      exact .inr (.inl ⟨_, rfl, fun he => hn (.inl he), fun he => hn (.inr (.inl he)), by omega⟩)
  · split at h
    · exact .inr (.inr (.inl ⟨‹_›, (Option.some.inj h).symm⟩))
    · split at h
      · split at h
        · cases h
        · cases h
          exact .inr (.inr (.inr (.inl ⟨‹_›, by omega⟩)))
      · split at h
        · cases h
        · rename_i hn
          rw [not_or, not_or, Bool.not_eq_true] at hn
          exact .inr (.inr (.inr (.inr ⟨hn.1, hn.2.1, hn.2.2, (Option.some.inj h).symm⟩)))

/-- An instruction that does not touch RSP and RBP. -/
theorem Instr.words_of_dest {i : Instr} (hs : i.usesStack = false) (hsp : i.dest ≠ some .rsp)
    (hbp : i.dest ≠ some .rbp) (d : Nat) : i.words d = some d := by
  unfold words
  split
  · cases hs
  · cases hs
  · rw [if_neg fun he => hsp (by rw [he]; rfl), if_neg fun he => hsp (by rw [he]; rfl),
      if_neg (by simp [hs, hsp, hbp])]

theorem Instr.words_le {i : Instr} {d e : Nat} (h : i.words d = some e) : e ≤ d + 1 := by
  rcases words_cases h with ⟨r, -, h⟩ | ⟨r, -, -, -, h⟩ | ⟨-, h⟩ | ⟨-, h⟩ | ⟨-, -, -, h⟩ <;> omega

/-- A word more or less below an address. -/
theorem sub_words_succ (top : Word) (d : Nat) :
    top - BitVec.ofNat 64 (8 * (d + 1)) = top - BitVec.ofNat 64 (8 * d) - 8 := by
  have h : BitVec.ofNat 64 (8 * (d + 1)) = BitVec.ofNat 64 (8 * d) + 8 := by
    rw [Nat.mul_succ, BitVec.ofNat_add]
    rfl
  rw [h]
  bv_omega

/-- A step moves RSP by the words it counts, and leaves RBP alone. -/
theorem Instr.step_words {i : Instr} {m m' : Machine} {d e : Nat} {top : Word}
    (h : i.step m = some m') (hw : i.words d = some e)
    (hm : m.regs .rsp = top - BitVec.ofNat 64 (8 * d)) :
    m'.regs .rsp = top - BitVec.ofNat 64 (8 * e) ∧ m'.regs .rbp = m.regs .rbp := by
  have hdown : m.regs .rsp - 8 = top - BitVec.ofNat 64 (8 * (d + 1)) := by
    rw [sub_words_succ, hm]
  have hup : ∀ k, d = k + 1 → m.regs .rsp + 8 = top - BitVec.ofNat 64 (8 * k) := by
    rintro k rfl
    rw [hm, sub_words_succ]
    bv_omega
  have h8 : BitVec.ofInt 64 8 = 8 := by decide
  rcases words_cases hw with ⟨r, rfl, rfl⟩ | ⟨r, rfl, hsp, hbp, he⟩ | ⟨rfl, rfl⟩ | ⟨rfl, he⟩ |
    ⟨hs, hsp, hbp, rfl⟩
  · cases h
    exact ⟨hdown, rfl⟩
  · cases h
    refine ⟨?_, Machine.set_regs_of_ne fun h => hbp h.symm⟩
    exact (Machine.set_regs_of_ne fun h => hsp h.symm).trans
      ((Machine.set_regs_self ..).trans (hup e he))
  · cases h
    exact ⟨h8 ▸ hdown, rfl⟩
  · cases h
    exact ⟨h8 ▸ hup e he, rfl⟩
  · exact ⟨(step_regs h hsp fun _ => hs).trans hm, step_regs h hbp fun he => by cases he⟩

/-! ## Instructions with their bytes -/

/-- An instruction and bytes that are read as it. -/
structure Op where
  instr : Instr
  bytes : List UInt8
  code : Code bytes [instr]

/-- The bytes of some code. -/
def assemble (ops : List Op) : List UInt8 := ops.flatMap Op.bytes

@[simp] theorem assemble_nil : assemble [] = [] := rfl

@[simp] theorem assemble_cons (o : Op) (ops : List Op) :
    assemble (o :: ops) = o.bytes ++ assemble ops := List.flatMap_cons

@[simp] theorem assemble_append (a b : List Op) : assemble (a ++ b) = assemble a ++ assemble b :=
  List.flatMap_append

/-- The bytes are read as the instructions. -/
theorem assemble_code (ops : List Op) : Code (assemble ops) (ops.map Op.instr) := by
  induction ops with
  | nil => exact .nil
  | cons o ops ih => exact o.code.append ih

/-- An instruction has at least one byte. -/
theorem Code.length_pos {bs : List UInt8} {i : Instr} (h : Code bs [i]) : 0 < bs.length := by
  cases bs with
  | nil =>
    have h := h []
    rw [List.length_singleton, decodeMany] at h
    cases h
  | cons b bs => exact Nat.succ_pos _

/-- What the processor reads at an offset does not depend on how the code is split there. -/
theorem Fetch.unique {code : List UInt8} {pc next next' : Nat} {i i' : Instr}
    (h : Fetch code pc i next) (h' : Fetch code pc i' next') : i = i' ∧ next = next' := by
  obtain ⟨pre, bytes, post, rfl, hc, rfl, rfl⟩ := h
  obtain ⟨pre', bytes', post', hcode, hc', hpc, rfl⟩ := h'
  rw [List.append_assoc, List.append_assoc] at hcode
  obtain ⟨rfl, hrest⟩ := List.append_inj hcode hpc
  have hd := hc post
  have hd' := hc' post'
  rw [hrest] at hd
  obtain ⟨hi, hpost⟩ := Prod.mk.inj (Option.some.inj (hd.symm.trans hd'))
  subst hpost
  refine ⟨List.singleton_inj.mp hi, ?_⟩
  rw [List.append_cancel_right hrest]

/-- The words on the stack behind some code. -/
def walk : Nat → List Op → Option Nat
  | d, [] => some d
  | d, o :: ops => (o.instr.words d).bind fun e => walk e ops

theorem walk_append {a b : List Op} {d e : Nat} (h : walk d a = some e) :
    walk d (a ++ b) = walk e b := by
  induction a generalizing d with
  | nil =>
    cases h
    rfl
  | cons o a ih =>
    obtain ⟨d', hw, h⟩ := Option.bind_eq_some_iff.mp h
    rw [List.cons_append, walk, hw, Option.bind_some]
    exact ih h

theorem walk_left {a b : List Op} {d f : Nat} (h : walk d (a ++ b) = some f) :
    ∃ e, walk d a = some e := by
  induction a generalizing d with
  | nil => exact ⟨d, rfl⟩
  | cons o a ih =>
    obtain ⟨d', hw, h⟩ := Option.bind_eq_some_iff.mp h
    rw [walk, hw, Option.bind_some]
    exact ih h

theorem walk_le {ops : List Op} {d e : Nat} (h : walk d ops = some e) : e ≤ d + ops.length := by
  induction ops generalizing d with
  | nil =>
    cases h
    exact Nat.le_refl _
  | cons o ops ih =>
    obtain ⟨d', hw, h⟩ := Option.bind_eq_some_iff.mp h
    have hd := Instr.words_le hw
    have he := ih h
    rw [List.length_cons]
    omega

/-! ## Places and jumps -/

/-- An instruction starts at the offset `n` of the code, or the code ends there, with `e` words
    on the stack. -/
inductive Place : Nat → List Op → Nat → Nat → Prop where
  | here {d : Nat} {ops : List Op} : Place d ops 0 d
  | there {d d' n e : Nat} {o : Op} {ops : List Op} : o.instr.words d = some d' →
      Place d' ops n e → Place d (o :: ops) (o.bytes.length + n) e

/-- The code has a jump to the offset `t`, from where `e` words are on the stack. -/
inductive JumpAt : Nat → List Op → Int → Nat → Prop where
  | here {d : Nat} {rel : Int} {o : Op} {ops : List Op} : o.instr.distance = some rel →
      JumpAt d (o :: ops) (o.bytes.length + rel) d
  | there {d d' e : Nat} {t : Int} {o : Op} {ops : List Op} : o.instr.words d = some d' →
      JumpAt d' ops t e → JumpAt d (o :: ops) (o.bytes.length + t) e

/-- Jumps lead to offsets in `out`, or to places of the code with as many words on the stack. -/
def Leads (out : Int → Prop) (d : Nat) (ops : List Op) : Prop :=
  ∀ t e, JumpAt d ops t e → out t ∨ ∃ n : Nat, t = n ∧ Place d ops n e

/-- Every jump leads to a place of the code with as many words on the stack. -/
abbrev Closed (d : Nat) (ops : List Op) : Prop := Leads (fun _ => False) d ops

theorem Place.of_walk {a : List Op} {d e : Nat} (h : walk d a = some e) (b : List Op) :
    Place d (a ++ b) (assemble a).length e := by
  induction a generalizing d with
  | nil =>
    cases h
    exact .here
  | cons o a ih =>
    obtain ⟨d', hw, h⟩ := Option.bind_eq_some_iff.mp h
    rw [assemble_cons, List.length_append]
    exact .there hw (ih h)

theorem Place.split {ops : List Op} {d n e : Nat} (h : Place d ops n e) :
    ∃ a b, ops = a ++ b ∧ n = (assemble a).length ∧ walk d a = some e := by
  induction h with
  | @here d ops => exact ⟨[], ops, rfl, rfl, rfl⟩
  | @there d d' n e o ops hw _ ih =>
    obtain ⟨a, b, rfl, rfl, h⟩ := ih
    refine ⟨o :: a, b, rfl, by simp, ?_⟩
    rw [walk, hw, Option.bind_some, h]

theorem Place.append {a : List Op} {d n e : Nat} (h : Place d a n e) (b : List Op) :
    Place d (a ++ b) n e := by
  obtain ⟨pre, post, rfl, rfl, hw⟩ := h.split
  rw [List.append_assoc]
  exact .of_walk hw _

theorem Place.behind {a b : List Op} {d d' n e : Nat} (ha : walk d a = some d')
    (h : Place d' b n e) : Place d (a ++ b) ((assemble a).length + n) e := by
  obtain ⟨pre, post, rfl, rfl, hw⟩ := h.split
  rw [← List.append_assoc, ← List.length_append, ← assemble_append]
  exact .of_walk ((walk_append ha).trans hw) _

theorem Place.words_le {ops : List Op} {d n e : Nat} (h : Place d ops n e) :
    e ≤ d + ops.length := by
  obtain ⟨a, b, rfl, -, hw⟩ := h.split
  have := walk_le hw
  rw [List.length_append]
  omega

/-- A jump changes nothing on the stack. -/
theorem Instr.words_of_distance {i : Instr} {rel : Int} (h : i.distance = some rel) (d : Nat) :
    i.words d = some d := by
  cases i <;> first | rfl | cases h

theorem JumpAt.split {ops : List Op} {d e : Nat} {t : Int} (h : JumpAt d ops t e) :
    ∃ a o b rel, ops = a ++ o :: b ∧ o.instr.distance = some rel ∧ walk d a = some e ∧
      t = (assemble a).length + o.bytes.length + rel := by
  induction h with
  | @here d rel o ops hd => exact ⟨[], o, ops, rel, rfl, hd, rfl, by simp⟩
  | @there d d' e t o ops hw _ ih =>
    obtain ⟨a, p, b, rel, rfl, hd, h, rfl⟩ := ih
    refine ⟨o :: a, p, b, rel, rfl, hd, ?_, ?_⟩
    · rw [walk, hw, Option.bind_some, h]
    · rw [assemble_cons, List.length_append]
      push_cast
      omega

theorem JumpAt.of_walk {a b : List Op} {o : Op} {d e : Nat} {rel : Int} (h : walk d a = some e)
    (ho : o.instr.distance = some rel) :
    JumpAt d (a ++ o :: b) ((assemble a).length + o.bytes.length + rel) e := by
  induction a generalizing d with
  | nil =>
    cases h
    simpa using JumpAt.here ho
  | cons p a ih =>
    obtain ⟨d', hw, h⟩ := Option.bind_eq_some_iff.mp h
    have hj := JumpAt.there hw (ih h)
    rw [assemble_cons, List.length_append]
    push_cast
    simpa [Int.add_assoc] using hj

/-- A jump of two parts is one of the first, or one of the second. -/
theorem JumpAt.append {a b : List Op} {d d' e : Nat} {t : Int} (ha : walk d a = some d')
    (h : JumpAt d (a ++ b) t e) :
    JumpAt d a t e ∨ ∃ u, t = (assemble a).length + u ∧ JumpAt d' b u e := by
  induction a generalizing d t with
  | nil =>
    cases ha
    exact .inr ⟨t, by simp, h⟩
  | cons o a ih =>
    obtain ⟨d₁, hw, ha⟩ := Option.bind_eq_some_iff.mp ha
    cases h with
    | here ho => exact .inl (.here ho)
    | there hw' h =>
      obtain rfl := Option.some.inj (hw.symm.trans hw')
      rcases ih ha h with hl | ⟨u, rfl, hr⟩
      · exact .inl (.there hw hl)
      · refine .inr ⟨u, ?_, hr⟩
        rw [assemble_cons, List.length_append]
        push_cast
        omega

/-! ## Closed code -/

theorem Leads.nil {out : Int → Prop} {d : Nat} : Leads out d [] := fun _ _ h => by cases h

theorem Leads.mono {out out' : Int → Prop} {d : Nat} {ops : List Op} (h : Leads out d ops)
    (ho : ∀ t, out t → out' t) : Leads out' d ops :=
  fun t e hj => (h t e hj).imp_left (ho t)

/-- An instruction that is no jump. -/
theorem Leads.single {out : Int → Prop} {d : Nat} {o : Op} (h : o.instr.distance = none) :
    Leads out d [o] := by
  intro t e hj
  cases hj with
  | here ho => rw [h] at ho; cases ho
  | there _ hj => cases hj

/-- Behind code that keeps the words on the stack, `o` may jump. -/
theorem JumpAt.single {o : Op} {d e : Nat} {rel t : Int} (ho : o.instr.distance = some rel)
    (h : JumpAt d [o] t e) : t = o.bytes.length + rel ∧ e = d := by
  cases h with
  | here ho' => exact ⟨by rw [Option.some.inj (ho.symm.trans ho')], rfl⟩
  | there _ h => cases h

theorem Closed.append {a b : List Op} {d e : Nat} (ha : Closed d a) (hw : walk d a = some e)
    (hb : Closed e b) : Closed d (a ++ b) := by
  intro t f hj
  refine .inr ?_
  rcases hj.append hw with hl | ⟨u, rfl, hr⟩
  · obtain ⟨n, rfl, hp⟩ := (ha t f hl).resolve_left id
    exact ⟨n, rfl, hp.append b⟩
  · obtain ⟨n, rfl, hp⟩ := (hb u f hr).resolve_left id
    exact ⟨(assemble a).length + n, by push_cast; rfl, hp.behind hw⟩

/-- A jump over code that keeps the words on the stack. -/
theorem Closed.over {o : Op} {b : List Op} {d : Nat}
    (ho : o.instr.distance = some ((assemble b).length : Int)) (hb : Closed d b)
    (hw : walk d b = some d) : Closed d (o :: b) := by
  have hwords := Instr.words_of_distance ho d
  have hend : walk d (o :: b) = some d := by rw [walk, hwords, Option.bind_some, hw]
  intro t e hj
  refine .inr ?_
  cases hj with
  | here ho' =>
    rw [← Option.some.inj (ho.symm.trans ho')]
    refine ⟨(assemble (o :: b)).length, by simp, ?_⟩
    simpa using Place.of_walk hend []
  | there hw' hj =>
    obtain rfl := Option.some.inj (hwords.symm.trans hw')
    obtain ⟨n, rfl, hp⟩ := (hb _ e hj).resolve_left id
    exact ⟨o.bytes.length + n, by push_cast; rfl, .there hw' hp⟩

/-- A loop: behind its head `c` a jump `o` out of it, and behind its body a jump `p` back. -/
theorem Closed.loop {c b : List Op} {o p : Op} {d : Nat} (hc : Closed d c)
    (hwc : walk d c = some d) (hb : Closed d b) (hwb : walk d b = some d)
    (ho : o.instr.distance = some ((assemble (b ++ [p])).length : Int))
    (hp : p.instr.distance = some (-((assemble (c ++ o :: (b ++ [p]))).length : Int))) :
    Closed d (c ++ o :: (b ++ [p])) := by
  have hwo := Instr.words_of_distance ho d
  have hwp := Instr.words_of_distance hp d
  have hend : walk d (o :: (b ++ [p])) = some d := by
    rw [walk, hwo, Option.bind_some, walk_append hwb, walk, hwp, Option.bind_some, walk]
  intro t e hj
  refine .inr ?_
  rcases hj.append hwc with hl | ⟨u, rfl, hr⟩
  · obtain ⟨n, rfl, hpl⟩ := (hc t e hl).resolve_left id
    exact ⟨n, rfl, hpl.append _⟩
  · cases hr with
    | here ho' =>
      rw [← Option.some.inj (ho.symm.trans ho')]
      refine ⟨(assemble (c ++ o :: (b ++ [p]))).length, by simp, ?_⟩
      simpa using Place.of_walk ((walk_append hwc).trans hend) []
    | there hw hr =>
      obtain rfl := Option.some.inj (hwo.symm.trans hw)
      rcases hr.append hwb with hm | ⟨v, rfl, hlast⟩
      · obtain ⟨n, rfl, hpl⟩ := (hb _ e hm).resolve_left id
        refine ⟨(assemble c).length + (o.bytes.length + n), by push_cast; rfl, ?_⟩
        exact (Place.there hwo (hpl.append _)).behind hwc
      · obtain ⟨rfl, rfl⟩ := hlast.single hp
        refine ⟨0, ?_, .here⟩
        simp only [assemble_append, assemble_cons, assemble_nil, List.append_nil,
          List.length_append]
        push_cast
        omega

/-! ## Instructions that are replaced or dropped -/

/-- The instruction `o'` in place of `o`, as long as it, and with the same effect on the stack. -/
structure Replaces (o o' : Op) : Prop where
  words : ∀ d, o'.instr.words d = o.instr.words d
  length : o'.bytes.length = o.bytes.length

theorem Replaces.walk {o o' : Op} (h : Replaces o o') (a b : List Op) (d : Nat) :
    walk d (a ++ o' :: b) = X64.walk d (a ++ o :: b) := by
  induction a generalizing d with
  | nil => rw [List.nil_append, List.nil_append, X64.walk, X64.walk, h.words]
  | cons p a ih =>
    rw [List.cons_append, List.cons_append, X64.walk, X64.walk]
    exact congrArg _ (funext fun e => ih e)

theorem Replaces.place {o o' : Op} (h : Replaces o o') {a b : List Op} {d n e : Nat}
    (hp : Place d (a ++ o :: b) n e) : Place d (a ++ o' :: b) n e := by
  induction a generalizing d n with
  | nil =>
    cases hp with
    | here => exact .here
    | there hw hp =>
      rw [← h.length]
      exact .there ((h.words d).trans hw) hp
  | cons p a ih =>
    cases hp with
    | here => exact .here
    | there hw hp => exact .there hw (ih hp)

theorem Replaces.jumpAt {o o' : Op} (h : Replaces o o') {a b : List Op} {d e : Nat} {t : Int}
    (hj : JumpAt d (a ++ o' :: b) t e) : JumpAt d (a ++ o :: b) t e ∨
      ∃ rel, o'.instr.distance = some rel ∧
        t = (assemble a).length + o'.bytes.length + rel := by
  induction a generalizing d t with
  | nil =>
    cases hj with
    | here ho => exact .inr ⟨_, ho, by simp⟩
    | there hw hj =>
      rw [h.length]
      exact .inl (.there ((h.words d).symm.trans hw) hj)
  | cons p a ih =>
    cases hj with
    | here hp => exact .inl (.here hp)
    | there hw hj =>
      rcases ih hj with hj | ⟨rel, ho, rfl⟩
      · exact .inl (.there hw hj)
      · refine .inr ⟨rel, ho, ?_⟩
        rw [assemble_cons, List.length_append]
        push_cast
        omega

/-- A jump that now leads out. -/
theorem Leads.replace {out : Int → Prop} {o o' : Op} (h : Replaces o o') {a b : List Op} {d : Nat}
    (hl : Leads out d (a ++ o :: b)) (ho : ∀ rel, o'.instr.distance = some rel →
      out ((assemble a).length + o'.bytes.length + rel)) : Leads out d (a ++ o' :: b) := by
  intro t e hj
  rcases h.jumpAt hj with hj | ⟨rel, hrel, rfl⟩
  · exact (hl t e hj).imp_right fun ⟨n, hn, hp⟩ => ⟨n, hn, h.place hp⟩
  · exact .inl (ho rel hrel)

/-- Without its last part, code has the end of the rest as a place outside. -/
theorem Leads.take {out : Int → Prop} {a b : List Op} {d f : Nat} (hw : walk d a = some f)
    (hl : Leads out d (a ++ b)) : Leads (fun t => out t ∨ (assemble a).length ≤ t) d a := by
  intro t e hj
  obtain ⟨pre, o, post, rel, rfl, hd, hpre, rfl⟩ := hj.split
  have hj' : JumpAt d (pre ++ o :: post ++ b)
      ((assemble pre).length + o.bytes.length + rel) e := by
    rw [List.append_assoc, List.cons_append]
    exact .of_walk hpre hd
  rcases hl _ e hj' with ho | ⟨n, hn, hp⟩
  · exact .inl (.inl ho)
  · by_cases hlt : n < (assemble (pre ++ o :: post)).length
    · refine .inr ⟨n, hn, ?_⟩
      obtain ⟨a', b', hab, rfl, hw'⟩ := hp.split
      rcases List.append_eq_append_iff.mp hab with ⟨c, rfl, -⟩ | ⟨c, hc, -⟩
      · simp only [assemble_append, List.length_append] at hlt
        omega
      · rw [hc]
        exact .of_walk hw' _
    · refine .inl (.inr ?_)
      rw [hn]
      omega

/-! ## Runs inside code -/

section Runs

variable {σ : Type} {ext : Reg → Machine → σ → Option (Machine × σ)}

/-- A run whose instructions are all in the bytes from `a` to `b`. -/
def RunsIn (ext : Reg → Machine → σ → Option (Machine × σ)) (code : List UInt8) (a b : Nat) :
    Config σ → Config σ → Prop :=
  ReflTransGen fun c c' => (a ≤ c.pc ∧ c.pc < b) ∧ Step ext code c c'

/-- What is called leaves RSP and RBP as they were. -/
def KeepsStack (ext : Reg → Machine → σ → Option (Machine × σ)) : Prop :=
  ∀ r m x m' x', ext r m x = some (m', x') →
    m'.regs .rsp = m.regs .rsp ∧ m'.regs .rbp = m.regs .rbp

/-- One instruction is a call, or a step of the machine. -/
theorem run_cases {i : Instr} {m m' : Machine} {x x' : σ} (h : i.run ext m x = some (m', x')) :
    (∃ r, i = .call r ∧ ext r m x = some (m', x')) ∨ i.step m = some m' := by
  unfold Instr.run at h
  split at h
  · exact .inl ⟨_, rfl, h⟩
  · obtain ⟨m₁, hm, he⟩ := Option.map_eq_some_iff.mp h
    obtain ⟨rfl, -⟩ := Prod.mk.inj he
    exact .inr hm

/-- The configuration is at a place of the code at `a`, with its words below `top`. -/
def AtPlace (a : Nat) (ops : List Op) (top base : Word) (c : Config σ) : Prop :=
  ∃ n e, c.pc = a + n ∧ Place 0 ops n e ∧
    c.machine.regs .rsp = top - BitVec.ofNat 64 (8 * e) ∧ c.machine.regs .rbp = base

/-- Inside code whose jumps lead to places or behind it, every step goes from place to place. -/
theorem AtPlace.step {front back : List UInt8} {ops : List Op} {k : Nat} {top base : Word}
    {c c' : Config σ} (hext : KeepsStack ext) (hw : walk 0 ops = some k)
    (hl : Leads (fun t => (assemble ops).length ≤ t) 0 ops)
    (h : AtPlace front.length ops top base c) (hc : c.pc < front.length + (assemble ops).length)
    (hs : Step ext (front ++ assemble ops ++ back) c c')
    (hc' : c'.pc < front.length + (assemble ops).length) :
    AtPlace front.length ops top base c' := by
  obtain ⟨n, e, hpc, hp, hsp, hbp⟩ := h
  obtain ⟨a, b, rfl, rfl, hwa⟩ := hp.split
  cases b with
  | nil =>
    rw [List.append_nil] at hc
    omega
  | cons o b =>
    have hfetch : Fetch (front ++ assemble (a ++ o :: b) ++ back) c.pc o.instr
        (c.pc + o.bytes.length) := by
      refine ⟨front ++ assemble a, o.bytes, assemble b ++ back, ?_, o.code, ?_, ?_⟩
      · simp only [assemble_append, assemble_cons, List.append_assoc]
      · rw [hpc, List.length_append]
      · rw [hpc, List.length_append, List.length_append]
    obtain ⟨e', hwo, -⟩ := Option.bind_eq_some_iff.mp ((walk_append hwa).symm.trans hw)
    have hnext : Place 0 (a ++ o :: b) ((assemble a).length + o.bytes.length) e' :=
      Place.behind hwa (.there hwo .here)
    have hjump : ∀ {rel : Int} {target : Nat}, o.instr.distance = some rel →
        (target : Int) = (c.pc + o.bytes.length : Nat) + rel →
        target < front.length + (assemble (a ++ o :: b)).length →
        ∃ n, target = front.length + n ∧ Place 0 (a ++ o :: b) n e := by
      intro rel target hd ht hlt
      rcases hl _ e (JumpAt.of_walk hwa hd) with hout | ⟨n, hn, hpl⟩
      · push_cast at ht
        omega
      · refine ⟨n, ?_, hpl⟩
        push_cast at ht
        omega
    cases hs with
    | @next _ _ i m m' x x' hf hr =>
      obtain ⟨rfl, rfl⟩ := hf.unique hfetch
      have hm : m'.regs .rsp = top - BitVec.ofNat 64 (8 * e') ∧ m'.regs .rbp = base := by
        rcases run_cases hr with ⟨r, hcall, hr⟩ | hr
        · have he : e' = e := by
            rw [hcall] at hwo
            exact (Option.some.inj hwo).symm
          rw [he, (hext r m x m' x' hr).1, (hext r m x m' x' hr).2]
          exact ⟨hsp, hbp⟩
        · have h := Instr.step_words hr hwo hsp
          exact ⟨h.1, h.2.trans hbp⟩
      exact ⟨_, e', by rw [hpc, Nat.add_assoc], hnext, hm⟩
    | jmp hf ht =>
      obtain ⟨ho, rfl⟩ := hf.unique hfetch
      obtain ⟨n, hn, hpl⟩ := hjump (ho ▸ rfl) ht hc'
      exact ⟨n, e, hn, hpl, hsp, hbp⟩
    | taken hf _ _ ht =>
      obtain ⟨ho, rfl⟩ := hf.unique hfetch
      obtain ⟨n, hn, hpl⟩ := hjump (ho ▸ rfl) ht hc'
      exact ⟨n, e, hn, hpl, hsp, hbp⟩
    | passed hf _ _ =>
      obtain ⟨ho, rfl⟩ := hf.unique hfetch
      have he : e' = e := by
        rw [← ho] at hwo
        exact (Option.some.inj hwo).symm
      subst he
      exact ⟨_, e', by rw [hpc, Nat.add_assoc], hnext, hsp, hbp⟩

/-- Code without jumps runs as `exec` says. -/
theorem Runs.of_exec {ops : List Op} {m m' : Machine} {x x' : σ}
    (h : exec ext (ops.map Op.instr) m x = some (m', x')) (front back : List UInt8) :
    Runs ext (front ++ assemble ops ++ back) ⟨front.length, m, x⟩
      ⟨(front ++ assemble ops).length, m', x'⟩ := by
  induction ops generalizing front m x with
  | nil =>
    obtain ⟨rfl, rfl⟩ := Prod.mk.inj (Option.some.inj h)
    rw [assemble_nil, List.append_nil]
    exact .refl
  | cons o ops ih =>
    obtain ⟨⟨m₁, x₁⟩, hi, h⟩ := Option.bind_eq_some_iff.mp h
    have hfetch : Fetch (front ++ assemble (o :: ops) ++ back) front.length o.instr
        (front ++ o.bytes).length := by
      refine ⟨front, o.bytes, assemble ops ++ back, ?_, o.code, rfl, rfl⟩
      simp only [assemble_cons, List.append_assoc]
    have hrest := ih h (front ++ o.bytes)
    rw [List.append_assoc front, ← assemble_cons] at hrest
    exact Relation.ReflTransGen.head (.next hfetch hi) hrest

/-- A run from the start of such code that is inside of it is at a place. -/
theorem place_of_runs {front back : List UInt8} {ops : List Op} {k : Nat}
    (hext : KeepsStack ext) (hw : walk 0 ops = some k)
    (hl : Leads (fun t => (assemble ops).length ≤ t) 0 ops) {m : Machine} {x : σ} {c : Config σ}
    (h : RunsIn ext (front ++ assemble ops ++ back) front.length
      (front.length + (assemble ops).length) ⟨front.length, m, x⟩ c)
    (hc : c.pc < front.length + (assemble ops).length) :
    AtPlace front.length ops (m.regs .rsp) (m.regs .rbp) c := by
  induction h with
  | refl =>
    refine ⟨0, 0, rfl, .here, ?_, rfl⟩
    exact (BitVec.sub_zero _).symm
  | tail _ hs ih => exact (ih hs.1.2).step hext hw hl hs.1.2 hs.2 hc

end Runs

end Lib.X64
