/-
  What the processor reads from the bytes of the emitters: one `code_…` lemma for each, over all
  registers and operands.
-/
import Cup.Emit

namespace Cup

open Lib.X64

/-! ## Parts -/

/-- Whether a register needs the bit of the prefix. -/
def high (r : Reg) : Bool := 8 ≤ r.num

@[simp] theorem regOf_num (r : Reg) : regOf (high r) r.num = r := by
  cases r <;> rfl

@[simp] theorem regOf_num_mod (r : Reg) : regOf (high r) (r.num % 8) = r := by
  cases r <;> rfl

theorem num_high (r : Reg) : (r.num / 8 % 2 = 1) ↔ high r = true := by
  cases r <;> decide

theorem toNat_ofNat {n : Nat} (h : n < 256) : (UInt8.ofNat n).toNat = n := by
  rw [UInt8.toNat_ofNat']
  exact Nat.mod_eq_of_lt h

/-- A prefix with its `w` bit is always there. -/
theorem readRex_wide (reg idx rm : Nat) (rest : Bytes) :
    readRex (emitRex true reg idx rm false ++ rest) =
      (⟨true, true, reg / 8 % 2 = 1, idx / 8 % 2 = 1, rm / 8 % 2 = 1⟩, rest) := by
  unfold emitRex
  by_cases h₁ : reg / 8 % 2 = 1 <;> by_cases h₂ : idx / 8 % 2 = 1 <;>
    by_cases h₃ : rm / 8 % 2 = 1 <;> simp [h₁, h₂, h₃, emit8, readRex]

/-- Without its `w` bit a prefix may be missing. -/
theorem readRex_narrow {reg rm : Nat} {force : Bool} {c : UInt8} {rest : Bytes}
    (hc : c.toNat / 16 ≠ 4) :
    readRex (emitRex false reg 0 rm force ++ c :: rest) =
      (⟨reg / 8 % 2 = 1 ∨ rm / 8 % 2 = 1 ∨ force, false, reg / 8 % 2 = 1, false, rm / 8 % 2 = 1⟩,
        c :: rest) := by
  unfold emitRex
  by_cases h₁ : reg / 8 % 2 = 1 <;> by_cases h₂ : rm / 8 % 2 = 1 <;> cases force <;>
    simp [h₁, h₂, emit8, readRex, hc]

theorem readModRM_rr (reg rm : Nat) (rest : Bytes) :
    readModRM (emitModrmRr reg rm ++ rest) = some (⟨3, reg % 8, rm % 8⟩, rest) := by
  have hn : (UInt8.ofNat (0xC0 + reg % 8 * 8 + rm % 8)).toNat = 0xC0 + reg % 8 * 8 + rm % 8 :=
    toNat_ofNat (by omega)
  rw [emitModrmRr, emit8, List.singleton_append, readModRM, hn]
  congr 3 <;> omega

theorem readLe_leBytes (k n : Nat) (rest : Bytes) :
    readLe k (leBytes k n ++ rest) = some (n % 256 ^ k, rest) := by
  have hlen : (leBytes k n).length = k := leBytes_length k n
  rw [readLe, if_neg (by simp [hlen]), List.take_left' hlen, List.drop_left' hlen, ofLe_leBytes]

theorem signed_of_range {k : Nat} {i : Int} (h : -(256 ^ k : Nat) ≤ i * 2)
    (h' : i * 2 < (256 ^ k : Nat)) : signed k (i % (256 ^ k : Nat)).toNat = i := by
  have hpos : (0 : Int) < (256 ^ k : Nat) := by exact_mod_cast Nat.pos_of_ne_zero (by simp)
  rw [signed, Int.toNat_of_nonneg (Int.emod_nonneg _ (by omega)), Int.emod_bmod]
  exact Int.bmod_eq_of_le_mul_two h h'

/-- A byte of a displacement or an immediate. -/
theorem readSigned_byte {i : Int} (h : -128 ≤ i ∧ i ≤ 127) (rest : Bytes) :
    readSigned 1 (emit8 (i % 256).toNat ++ rest) = some (i, rest) := by
  have hs : signed 1 (i % 256).toNat = i := signed_of_range (k := 1) (by omega) (by omega)
  have hb : emit8 (i % 256).toNat = leBytes 1 (i % 256).toNat := rfl
  rw [readSigned, hb, readLe_leBytes, Nat.mod_eq_of_lt (by omega)]
  exact congrArg (fun n => some (n, rest)) hs

/-- Four bytes of a displacement or an immediate. -/
theorem readSigned_emiti32 {i : Int} (h : -2 ^ 31 ≤ i ∧ i < 2 ^ 31) (rest : Bytes) :
    readSigned 4 (emiti32 i ++ rest) = some (i, rest) := by
  have hs : signed 4 (i % 2 ^ 32).toNat = i := signed_of_range (k := 4) (by omega) (by omega)
  rw [readSigned, emiti32, readLe_leBytes, Nat.mod_eq_of_lt (by omega)]
  exact congrArg (fun n => some (n, rest)) hs

/-- An `int32_t`. -/
def Int32 (i : Int) : Prop := -2 ^ 31 ≤ i ∧ i < 2 ^ 31

theorem modOf_lt (base : Nat) (disp : Int) : modOf base disp < 3 := by
  unfold modOf
  split
  · decide
  · split <;> decide

theorem readDisp_modOf (base : Nat) {disp : Int} (hd : Int32 disp) (rest : Bytes) :
    readDisp (modOf base disp) (dispBytes (modOf base disp) disp ++ rest) = some (disp, rest) := by
  unfold modOf
  split
  · rename_i h
    rw [h.1]
    rfl
  · split
    · rename_i h
      exact readSigned_byte h rest
    · exact readSigned_emiti32 hd rest

/-- A memory operand is read as it was written. -/
theorem readMem_emit {base : Reg} {disp : Int} (hd : Int32 disp) {rex : Rex} (hx : rex.x = false)
    (hb : rex.b = high base) (reg : Nat) (rest : Bytes) :
    readMem rex ⟨modOf base.num disp, reg, base.num % 8⟩
      ((if base.num % 8 = 4 then emit8 0x24 else []) ++
        (dispBytes (modOf base.num disp) disp ++ rest)) = some ((base, disp), rest) := by
  have hform : ¬ (modOf base.num disp = 0 ∧ base.num % 8 = 5) := by
    rintro ⟨h0, h5⟩
    unfold modOf at h0
    rw [if_neg fun h => h.2 h5] at h0
    split at h0 <;> cases h0
  have hreg : regOf rex.b (base.num % 8) = base := by rw [hb, regOf_num_mod]
  have hdisp := readDisp_modOf base.num hd rest
  unfold readMem
  rw [if_neg hform]
  dsimp only
  by_cases h4 : base.num % 8 = 4
  · rw [if_pos h4, if_pos h4, emit8, List.singleton_append]
    dsimp only
    rw [if_pos ⟨rfl, hx⟩, hdisp, ← h4]
    exact congrArg (fun r => some ((r, disp), rest)) hreg
  · rw [if_neg h4, if_neg h4, List.nil_append, hdisp]
    exact congrArg (fun r => some ((r, disp), rest)) hreg

theorem readRM_mem {reg : Nat} {base : Reg} {disp : Int} (hd : Int32 disp) {rex : Rex}
    (hx : rex.x = false) (hb : rex.b = high base) (rest : Bytes)
    (regs : Reg → Reg → Option Instr) (mem : Reg → Reg → Int → Option Instr) :
    readRM rex (emitModrmMem reg base.num disp ++ rest) regs mem =
      (mem (regOf rex.r (reg % 8)) base disp).map (·, rest) := by
  have hmod := modOf_lt base.num disp
  have hn : (UInt8.ofNat (modOf base.num disp * 64 + reg % 8 * 8 + base.num % 8)).toNat =
      modOf base.num disp * 64 + reg % 8 * 8 + base.num % 8 := toNat_ofNat (by omega)
  have hbytes : emitModrmMem reg base.num disp ++ rest =
      UInt8.ofNat (modOf base.num disp * 64 + reg % 8 * 8 + base.num % 8) ::
        ((if base.num % 8 = 4 then emit8 0x24 else []) ++
          (dispBytes (modOf base.num disp) disp ++ rest)) := by
    simp only [emitModrmMem, emit8, List.append_assoc, List.cons_append, List.nil_append]
  have hfields : (⟨(modOf base.num disp * 64 + reg % 8 * 8 + base.num % 8) / 64,
      (modOf base.num disp * 64 + reg % 8 * 8 + base.num % 8) / 8 % 8,
      (modOf base.num disp * 64 + reg % 8 * 8 + base.num % 8) % 8⟩ : ModRM) =
      ⟨modOf base.num disp, reg % 8, base.num % 8⟩ := by
    congr 1 <;> omega
  rw [hbytes, readRM, readModRM, hn, hfields]
  change (if modOf base.num disp = 3 then _ else _) = _
  rw [if_neg (by omega), readMem_emit hd hx hb]
  change (mem (regOf rex.r (reg % 8)) base disp).bind (fun i => some (i, rest)) = _
  cases mem (regOf rex.r (reg % 8)) base disp <;> rfl

theorem readRM_rr {reg rm : Reg} {rex : Rex} (hr : rex.r = high reg) (hb : rex.b = high rm)
    (rest : Bytes) (regs : Reg → Reg → Option Instr) (mem : Reg → Reg → Int → Option Instr) :
    readRM rex (emitModrmRr reg.num rm.num ++ rest) regs mem = (regs reg rm).map (·, rest) := by
  rw [readRM, readModRM_rr]
  simp only [Option.bind_eq_bind, Option.bind_some, hr, hb, regOf_num_mod, if_true]
  cases regs reg rm <;> rfl

/-! ## Instructions -/

/-- A 64-bit operation with its prefix. -/
theorem decode_wide {reg idx rm : Nat} {op : Nat} (hop : op < 256) (h0F : op ≠ 0x0F)
    (rest : Bytes) :
    decode (emitRex true reg idx rm false ++ (emit8 op ++ rest)) =
      readWide ⟨true, true, reg / 8 % 2 = 1, idx / 8 % 2 = 1, rm / 8 % 2 = 1⟩ op rest := by
  rw [decode, readRex_wide, emit8, List.singleton_append]
  dsimp only
  rw [toNat_ofNat hop, if_neg h0F]
  rfl

/-- An operation of the second table, of 64 bits. -/
theorem decode_two {reg rm : Nat} {op : Nat} (rest : Bytes) :
    decode (emitRex true reg 0 rm false ++ (emit8 0x0F ++ (emit8 op ++ rest))) =
      readTwo ⟨true, true, reg / 8 % 2 = 1, false, rm / 8 % 2 = 1⟩ (emit8 op ++ rest) := by
  rw [decode, readRex_wide]
  rfl

/-- An operation without the `w` bit. -/
theorem decode_narrow {reg rm : Nat} {op : Nat} {force : Bool} (hop : op < 256)
    (h0F : op ≠ 0x0F) (h40 : op / 16 ≠ 4) (rest : Bytes) :
    decode (emitRex false reg 0 rm force ++ (emit8 op ++ rest)) =
      readNarrow ⟨reg / 8 % 2 = 1 ∨ rm / 8 % 2 = 1 ∨ force, false, reg / 8 % 2 = 1, false,
        rm / 8 % 2 = 1⟩ op rest := by
  have hc : (UInt8.ofNat op).toNat / 16 ≠ 4 := by rwa [toNat_ofNat hop]
  rw [decode, emit8, List.singleton_append, readRex_narrow hc]
  dsimp only
  rw [toNat_ofNat hop, if_neg h0F]
  rfl

/-- An operation on two registers. -/
theorem code_rr {op : Nat} {reg rm : Reg} {i : Instr} (hop : op < 256) (h0F : op ≠ 0x0F)
    (h : ∀ rex : Rex, rex.r = high reg → rex.b = high rm → ∀ rest,
      readWide rex op (emitModrmRr reg.num rm.num ++ rest) = some (i, rest)) :
    Code (emitRr op reg rm) [i] := by
  refine Code.single fun rest => ?_
  rw [emitRr, List.append_assoc, List.append_assoc, decode_wide hop h0F]
  exact h _ (by simp [num_high]) (by simp [num_high]) rest

/-- An operation on a register and memory. -/
theorem code_mem {op reg : Nat} {base : Reg} {disp : Int} {i : Instr} (hop : op < 256)
    (h0F : op ≠ 0x0F)
    (h : ∀ rex : Rex, rex.r = decide (reg / 8 % 2 = 1) → rex.x = false → rex.b = high base →
      ∀ rest, readWide rex op (emitModrmMem reg base.num disp ++ rest) = some (i, rest)) :
    Code (emitRex true reg 0 base.num false ++ emit8 op ++ emitModrmMem reg base.num disp) [i] := by
  refine Code.single fun rest => ?_
  rw [List.append_assoc, List.append_assoc, decode_wide hop h0F]
  exact h _ rfl rfl (by simp [num_high]) rest

/-- The register field of an opcode with the digit 0. -/
theorem num_digit_zero : (regOf false 0).num % 8 = 0 := rfl

theorem regOf_bit (r : Reg) : regOf (r.num / 8 % 2 = 1) (r.num % 8) = r := by
  cases r <;> rfl

theorem code_movRr {dst src : Reg} (h : dst ≠ src) : Code (emitMovRr dst src) [.mov dst src] := by
  rw [emitMovRr, if_pos h]
  exact code_rr (by decide) (by decide) fun _ hr hb rest => by
    simp [readWide, readRM_rr hr hb]

theorem code_addRr (dst src : Reg) : Code (emitAddRr dst src) [.alu .add dst src] :=
  code_rr (by decide) (by decide) fun _ hr hb rest => by
    simp [readWide, readRM_rr hr hb]

theorem code_subRr (dst src : Reg) : Code (emitSubRr dst src) [.alu .sub dst src] :=
  code_rr (by decide) (by decide) fun _ hr hb rest => by
    simp [readWide, readRM_rr hr hb]

theorem code_cmpRr (dst src : Reg) : Code (emitCmpRr dst src) [.alu .cmp dst src] :=
  code_rr (by decide) (by decide) fun _ hr hb rest => by
    simp [readWide, readRM_rr hr hb]

theorem code_testRr (a b : Reg) : Code (emitTestRr a b) [.test a b] :=
  code_rr (by decide) (by decide) fun _ hr hb rest => by
    simp [readWide, readRM_rr hr hb]

theorem code_load {dst base : Reg} {disp : Int} (hd : Int32 disp) :
    Code (emitLoad dst base disp) [.load dst base disp] :=
  code_mem (by decide) (by decide) fun _ hr hx hb rest => by
    simp [readWide, readRM_mem hd hx hb, hr, regOf_bit]

theorem code_store {base src : Reg} {disp : Int} (hd : Int32 disp) :
    Code (emitStore base disp src) [.store base disp src] :=
  code_mem (by decide) (by decide) fun _ hr hx hb rest => by
    simp [readWide, readRM_mem hd hx hb, hr, regOf_bit]

theorem code_addMemReg {base src : Reg} {disp : Int} (hd : Int32 disp) :
    Code (emitAddMemReg base disp src) [.addMem base disp src] :=
  code_mem (by decide) (by decide) fun _ hr hx hb rest => by
    simp [readWide, readRM_mem hd hx hb, hr, regOf_bit]

theorem code_storeImm32 {base : Reg} {disp imm : Int} (hd : Int32 disp) (hi : Int32 imm) :
    Code (emitStoreImm32 base disp imm) [.storeImm base disp imm] := by
  refine Code.single fun rest => ?_
  rw [emitStoreImm32, List.append_assoc, List.append_assoc, List.append_assoc,
    decode_wide (by decide) (by decide)]
  simp [readWide, readRM_mem hd, num_high, num_digit_zero, readSigned_emiti32 hi]

theorem readLea_emit {dst base index : Reg} (h : index ≠ .rsp) {rex : Rex}
    (hr : rex.r = high dst) (hx : rex.x = high index) (hb : rex.b = high base) {mod : Nat}
    (hmod : mod = if base.num % 8 = 5 then 1 else 0) (rest : Bytes) :
    readLea rex (UInt8.ofNat (mod * 64 + dst.num % 8 * 8 + 4) ::
      UInt8.ofNat (3 * 64 + index.num % 8 * 8 + base.num % 8) ::
        ((if mod = 1 then emit8 0 else []) ++ rest)) = some (.lea8 dst base index, rest) := by
  have hlt : mod < 2 := by
    rw [hmod]
    split <;> decide
  have hindex : ¬ (index.num % 8 = 4 ∧ high index = false) := by
    cases index <;> first | exact absurd rfl h | decide
  have hm : (UInt8.ofNat (mod * 64 + dst.num % 8 * 8 + 4)).toNat = mod * 64 + dst.num % 8 * 8 + 4 :=
    toNat_ofNat (by omega)
  have hs : (UInt8.ofNat (3 * 64 + index.num % 8 * 8 + base.num % 8)).toNat =
      3 * 64 + index.num % 8 * 8 + base.num % 8 := toNat_ofNat (by omega)
  have h₁ : (mod * 64 + dst.num % 8 * 8 + 4) / 8 % 8 = dst.num % 8 := by omega
  have h₂ : (mod * 64 + dst.num % 8 * 8 + 4) / 64 = mod := by omega
  have h₃ : (mod * 64 + dst.num % 8 * 8 + 4) % 8 = 4 := by omega
  have h₄ : (3 * 64 + index.num % 8 * 8 + base.num % 8) % 8 = base.num % 8 := by omega
  have h₅ : (3 * 64 + index.num % 8 * 8 + base.num % 8) / 8 % 8 = index.num % 8 := by omega
  have h₆ : (3 * 64 + index.num % 8 * 8 + base.num % 8) / 64 = 3 := by omega
  unfold readLea
  dsimp only
  rw [hm, hs, h₁, h₂, h₃, h₄, h₅, h₆, hr, hx, hb, regOf_num_mod, regOf_num_mod, regOf_num_mod,
    if_neg (by simpa using hindex)]
  by_cases h5 : base.num % 8 = 5
  · rw [if_pos h5] at hmod
    subst hmod
    rfl
  · rw [if_neg h5] at hmod
    subst hmod
    exact if_neg h5

theorem code_leaIdx8 {dst base index : Reg} (h : index ≠ .rsp) :
    Code (emitLeaIdx8 dst base index) [.lea8 dst base index] := by
  refine Code.single fun rest => ?_
  rw [emitLeaIdx8]
  simp only [List.append_assoc]
  rw [decode_wide (by decide) (by decide)]
  exact readLea_emit h (by simp [num_high]) (by simp [num_high]) (by simp [num_high]) rfl rest

theorem readWide_movImm {op : Nat} (hop : op / 8 = 23) (rex : Rex) (imm : Nat) (rest : Bytes) :
    readWide rex op (emit64 imm ++ rest) =
      some (.movImm (regOf rex.b op) (BitVec.ofNat 64 imm), rest) := by
  have hn : BitVec.ofNat 64 (imm % 256 ^ 8) = BitVec.ofNat 64 imm :=
    BitVec.eq_of_toNat_eq (by simp)
  unfold readWide
  iterate 12 rw [if_neg (by omega)]
  rw [if_pos hop, emit64, readLe_leBytes, ← hn]
  rfl

theorem readNarrow_movImm {op : Nat} (hop : op / 8 = 23) (rex : Rex) {imm : Nat}
    (himm : imm < 2 ^ 32) (rest : Bytes) :
    readNarrow rex op (emit32 imm ++ rest) =
      some (.movImm (regOf rex.b op) (BitVec.ofNat 64 imm), rest) := by
  unfold readNarrow
  rw [if_neg (by omega), if_pos hop, emit32, readLe_leBytes, Nat.mod_eq_of_lt (by omega)]
  rfl

theorem regOf_add {n : Nat} (h : n % 8 = 0) (r : Reg) :
    regOf (r.num / 8 % 2 = 1) (n + r.num % 8) = r := by
  have hr : (n + r.num % 8) % 8 = r.num % 8 := by omega
  have hr' := regOf_bit r
  rw [regOf, Nat.mod_mod] at hr'
  rw [regOf, hr, hr']

theorem code_movImm64 (reg : Reg) (imm : Nat) :
    Code (emitMovImm64 reg imm) [.movImm reg (BitVec.ofNat 64 imm)] := by
  refine Code.single fun rest => ?_
  rw [emitMovImm64, List.append_assoc, List.append_assoc, decode_wide (by omega) (by omega),
    readWide_movImm (by omega), regOf_add (by decide)]

/-- A `size_t` whose sign-extended low half is itself. -/
theorem toInt32_of_neg {n : Nat} (h : n < 2 ^ 64) (h' : 2 ^ 64 - 2 ^ 31 ≤ n) :
    toInt32 n = (n : Int) - 2 ^ 64 := by
  have hmul : (2 : Int) ^ 64 = 2 ^ 32 * (2 ^ 32 : Nat) := by decide
  have hsub : ((n : Int) - 2 ^ 64).bmod (2 ^ 32) = (n : Int).bmod (2 ^ 32) := by
    rw [hmul]
    exact Int.sub_mul_bmod_self_right _ _ _
  have hsmall : ((n : Int) - 2 ^ 64).bmod (2 ^ 32) = (n : Int) - 2 ^ 64 := by
    apply Int.bmod_eq_of_le_mul_two
    · push_cast
      omega
    · push_cast
      omega
  unfold toInt32
  exact hsub.symm.trans hsmall

/-- A constant of 64 bits, in the shortest of its three encodings. -/
theorem code_movConst (reg : Reg) {imm : Nat} (himm : imm < 2 ^ 64) :
    Code (emitMovConst reg imm) [.movImm reg (BitVec.ofNat 64 imm)] := by
  unfold emitMovConst
  split
  · refine Code.single fun rest => ?_
    rw [List.append_assoc, List.append_assoc,
      decode_narrow (by omega) (by omega) (by omega), readNarrow_movImm (by omega) _ (by omega),
      regOf_add (by decide)]
  · split
    · refine Code.single fun rest => ?_
      have hint := toInt32_of_neg himm ‹_›
      have hval : BitVec.ofInt 64 (toInt32 imm) = BitVec.ofNat 64 imm := by
        rw [hint]
        apply BitVec.eq_of_toInt_eq
        rw [BitVec.toInt_ofInt, BitVec.toInt_ofNat']
        exact Int.sub_bmod_right _ _
      have hrange : -2 ^ 31 ≤ toInt32 imm ∧ toInt32 imm < 2 ^ 31 := by
        rw [hint]
        constructor <;> omega
      simp only [List.append_assoc]
      rw [decode_wide (by decide) (by decide)]
      simp [readWide, readModRM_rr, readRM, regOf_bit, num_digit_zero, readSigned_emiti32 hrange,
        hval]
    · exact code_movImm64 reg imm

/-- The prefix of the moves between RAX and an absolute address. -/
theorem readRex_48 (rest : Bytes) :
    readRex (emit8 0x48 ++ rest) = (⟨true, true, false, false, false⟩, rest) := rfl

theorem ofNat_mod (n : Nat) : BitVec.ofNat 64 (n % 256 ^ 8) = BitVec.ofNat 64 n :=
  BitVec.eq_of_toNat_eq (by simp)

theorem code_loadRaxAbs (addr : Nat) :
    Code (emitLoadRaxAbs addr) [.loadAbs (BitVec.ofNat 64 addr)] := by
  refine Code.single fun rest => ?_
  rw [← ofNat_mod, decode, emitLoadRaxAbs, List.append_assoc, List.append_assoc, readRex_48]
  simp [emit8, readWide, emit64, readLe_leBytes]

theorem code_storeRaxAbs (addr : Nat) :
    Code (emitStoreRaxAbs addr) [.storeAbs (BitVec.ofNat 64 addr)] := by
  refine Code.single fun rest => ?_
  rw [← ofNat_mod, decode, emitStoreRaxAbs, List.append_assoc, List.append_assoc, readRex_48]
  simp [emit8, readWide, emit64, readLe_leBytes]

theorem code_aluImm {ext : Nat} {op : Alu} {reg : Reg} {imm : Int} (hext : ext < 8)
    (hop : aluOf ext = some op) (hi : Int32 imm) :
    Code (emitAluImm ext reg imm) [.aluImm op reg imm] := by
  refine Code.single fun rest => ?_
  have he : ext % 8 = ext := Nat.mod_eq_of_lt hext
  unfold emitAluImm
  split
  · rename_i hb
    simp only [List.append_assoc]
    rw [decode_wide (by decide) (by decide)]
    simp [readWide, readAluImm, readModRM_rr, he, hop, readSigned_byte hb, regOf_bit]
  · simp only [List.append_assoc]
    rw [decode_wide (by decide) (by decide)]
    simp [readWide, readAluImm, readModRM_rr, he, hop, readSigned_emiti32 hi, regOf_bit]

theorem code_xor32Rr (dst src : Reg) : Code (emitXor32Rr dst src) [.xor32 dst src] := by
  refine Code.single fun rest => ?_
  rw [emitXor32Rr]
  simp only [List.append_assoc]
  rw [decode_narrow (by decide) (by decide) (by decide)]
  simp [readNarrow, readRM, readModRM_rr, regOf_bit]

theorem code_imulImm {reg : Reg} {imm : Int} (hi : Int32 imm) :
    Code (emitImulImm reg imm) [.aluImm .imul reg imm] := by
  refine Code.single fun rest => ?_
  rw [emitImulImm]
  simp only [List.append_assoc]
  rw [decode_wide (by decide) (by decide)]
  simp [readWide, readRM, readModRM_rr, regOf_bit, readSigned_emiti32 hi]

theorem code_imulRr (dst src : Reg) : Code (emitImulRr dst src) [.alu .imul dst src] := by
  refine Code.single fun rest => ?_
  rw [emitImulRr]
  simp only [List.append_assoc]
  rw [decode_two]
  simp [readTwo, emit8, readRM, readModRM_rr, regOf_bit]

theorem code_shlImm (reg : Reg) {n : Nat} (hn : n < 256) :
    Code (emitShlImm reg n) [.shl reg n] := by
  refine Code.single fun rest => ?_
  have hb : emit8 n = leBytes 1 n := rfl
  rw [emitShlImm, hb]
  simp only [List.append_assoc]
  rw [decode_wide (by decide) (by decide)]
  simp [readWide, readModRM_rr, regOf_bit, readLe_leBytes, Nat.mod_eq_of_lt hn]

/-- The bytes of the two instructions of `emit_setcc_zx`. -/
theorem setccZx_split (cc : Cond) (reg : Reg) : ∃ b b', emitSetccZx cc reg = b ++ b' ∧
    Code b [.setcc cc reg] ∧ Code b' [.movzx reg reg] := by
  have hset : Code (emitRex false 0 0 reg.num (4 ≤ reg.num) ++ (emit8 0x0F ++
      (emit8 (0x90 + ccOf cc) ++ emitModrmRr 0 reg.num))) [.setcc cc reg] :=
    Code.single fun rest => by cases reg <;> cases cc <;> rfl
  have hzx : Code (emitRex true reg.num 0 reg.num false ++ (emit8 0x0F ++
      (emit8 0xB6 ++ emitModrmRr reg.num reg.num))) [.movzx reg reg] := by
    refine Code.single fun rest => ?_
    simp only [List.append_assoc]
    rw [decode_two]
    simp [readTwo, emit8, readRM, readModRM_rr, regOf_bit]
  refine ⟨_, _, ?_, hset, hzx⟩
  simp only [emitSetccZx, List.append_assoc]

theorem code_setccZx (cc : Cond) (reg : Reg) :
    Code (emitSetccZx cc reg) [.setcc cc reg, .movzx reg reg] := by
  obtain ⟨b, b', he, hset, hzx⟩ := setccZx_split cc reg
  rw [he]
  exact hset.append hzx

theorem code_push (reg : Reg) : Code (pushBytes reg) [.push reg] :=
  Code.single fun rest => by cases reg <;> rfl

theorem code_pop (reg : Reg) : Code (popBytes reg) [.pop reg] :=
  Code.single fun rest => by cases reg <;> rfl

theorem code_callReg (reg : Reg) : Code (emitCallReg reg) [.call reg] :=
  Code.single fun rest => by cases reg <;> rfl

theorem code_ret : Code emitRet [.ret] := Code.single fun _ => rfl

theorem code_leave : Code emitLeave [.leave] := Code.single fun _ => rfl

theorem code_nop4 : Code nop4 [.nop] := by
  refine Code.single fun rest => ?_
  have hop : (0x1F : UInt8).toNat = 0x1F := rfl
  change readTwo {} (0x1F :: 0x40 :: 0x00 :: rest) = _
  rw [readTwo]
  dsimp only
  rw [hop, if_neg (by decide), if_neg (by decide), if_neg (by decide), if_neg (by decide),
    if_pos ⟨rfl, rfl⟩]
  rfl

theorem decode_jmp (bs : Bytes) :
    decode (jmpOpcode ++ bs) = (readSigned 4 bs).map fun r => (.jmp r.1, r.2) := by
  rw [Option.map_eq_bind]
  rfl

theorem decode_jcc (cc : Cond) (bs : Bytes) :
    decode (jccOpcode cc ++ bs) = (readSigned 4 bs).map fun r => (.jcc cc r.1, r.2) := by
  rw [Option.map_eq_bind]
  cases cc <;> rfl

theorem code_jmp {rel : Int} (h : Int32 rel) : Code (jmpOpcode ++ emiti32 rel) [.jmp rel] := by
  refine Code.single fun rest => ?_
  rw [List.append_assoc, decode_jmp, readSigned_emiti32 h, Option.map_some]

theorem code_jcc (cc : Cond) {rel : Int} (h : Int32 rel) :
    Code (jccOpcode cc ++ emiti32 rel) [.jcc cc rel] := by
  refine Code.single fun rest => ?_
  rw [List.append_assoc, decode_jcc, readSigned_emiti32 h, Option.map_some]

theorem code_rspAdjust_down : Code (emitRspAdjust (-8)) [.aluImm .sub .rsp 8] :=
  code_aluImm (by decide) rfl (by unfold Int32; omega)

theorem code_rspAdjust_up : Code (emitRspAdjust 8) [.aluImm .add .rsp 8] :=
  code_aluImm (by decide) rfl (by unfold Int32; omega)

/-! ## Every emitter

The operands have the width that they have in the source, and the index of `lea` is not RSP. -/

/-- A call of an emitter. -/
inductive Emission where
  | movRr (dst src : X64Reg)
  | load (dst base : X64Reg) (disp : BitVec 32)
  | store (base : X64Reg) (disp : BitVec 32) (src : X64Reg)
  | storeImm32 (base : X64Reg) (disp imm : BitVec 32)
  | addMemReg (base : X64Reg) (disp : BitVec 32) (src : X64Reg)
  | leaIdx8 (dst base index : X64Reg) (h : index ≠ .rsp)
  | movImm64 (reg : X64Reg) (imm : Word)
  | movConst (reg : X64Reg) (imm : Word)
  | loadRaxAbs (addr : Word)
  | storeRaxAbs (addr : Word)
  | aluImm (ext : Nat) (op : Alu) (h : aluOf ext = some op) (reg : X64Reg) (imm : BitVec 32)
  | addRr (dst src : X64Reg)
  | subRr (dst src : X64Reg)
  | cmpRr (dst src : X64Reg)
  | testRr (a b : X64Reg)
  | xor32Rr (dst src : X64Reg)
  | imulImm (reg : X64Reg) (imm : BitVec 32)
  | imulRr (dst src : X64Reg)
  | shlImm (reg : X64Reg) (n : BitVec 8)
  | setccZx (cc : Cond) (reg : X64Reg)
  | push (reg : X64Reg)
  | pop (reg : X64Reg)
  | callReg (reg : X64Reg)
  | rspAdjust (delta : BitVec 8)
  | ret
  | leave

/-- The bytes that the emitter appends. -/
def Emission.bytes : Emission → Bytes
  | movRr dst src => emitMovRr dst src
  | load dst base disp => emitLoad dst base disp.toInt
  | store base disp src => emitStore base disp.toInt src
  | storeImm32 base disp imm => emitStoreImm32 base disp.toInt imm.toInt
  | addMemReg base disp src => emitAddMemReg base disp.toInt src
  | leaIdx8 dst base index _ => emitLeaIdx8 dst base index
  | movImm64 reg imm => emitMovImm64 reg imm.toNat
  | movConst reg imm => emitMovConst reg imm.toNat
  | loadRaxAbs addr => emitLoadRaxAbs addr.toNat
  | storeRaxAbs addr => emitStoreRaxAbs addr.toNat
  | aluImm ext _ _ reg imm => emitAluImm ext reg imm.toInt
  | addRr dst src => emitAddRr dst src
  | subRr dst src => emitSubRr dst src
  | cmpRr dst src => emitCmpRr dst src
  | testRr a b => emitTestRr a b
  | xor32Rr dst src => emitXor32Rr dst src
  | imulImm reg imm => emitImulImm reg imm.toInt
  | imulRr dst src => emitImulRr dst src
  | shlImm reg n => emitShlImm reg n.toNat
  | setccZx cc reg => emitSetccZx cc reg
  | push reg => pushBytes reg
  | pop reg => popBytes reg
  | callReg reg => emitCallReg reg
  | rspAdjust delta => emitRspAdjust delta.toInt
  | ret => emitRet
  | leave => emitLeave

/-- The instructions that are meant. -/
def Emission.instrs : Emission → List Instr
  | movRr dst src => if dst = src then [] else [.mov dst src]
  | load dst base disp => [.load dst base disp.toInt]
  | store base disp src => [.store base disp.toInt src]
  | storeImm32 base disp imm => [.storeImm base disp.toInt imm.toInt]
  | addMemReg base disp src => [.addMem base disp.toInt src]
  | leaIdx8 dst base index _ => [.lea8 dst base index]
  | movImm64 reg imm => [.movImm reg imm]
  | movConst reg imm => [.movImm reg imm]
  | loadRaxAbs addr => [.loadAbs addr]
  | storeRaxAbs addr => [.storeAbs addr]
  | aluImm _ op _ reg imm => [.aluImm op reg imm.toInt]
  | addRr dst src => [.alu .add dst src]
  | subRr dst src => [.alu .sub dst src]
  | cmpRr dst src => [.alu .cmp dst src]
  | testRr a b => [.test a b]
  | xor32Rr dst src => [.xor32 dst src]
  | imulImm reg imm => [.aluImm .imul reg imm.toInt]
  | imulRr dst src => [.alu .imul dst src]
  | shlImm reg n => [.shl reg n.toNat]
  | setccZx cc reg => [.setcc cc reg, .movzx reg reg]
  | push reg => [.push reg]
  | pop reg => [.pop reg]
  | callReg reg => [.call reg]
  | rspAdjust delta =>
    if delta.toInt < 0 then [.aluImm .sub .rsp (-delta.toInt)] else [.aluImm .add .rsp delta.toInt]
  | ret => [.ret]
  | leave => [.leave]

theorem int32_toInt (v : BitVec 32) : Int32 v.toInt := by
  have hlo := v.le_toInt
  have hhi := v.toInt_lt
  unfold Int32
  omega

theorem aluOf_lt {ext : Nat} {op : Alu} (h : aluOf ext = some op) : ext < 8 := by
  unfold aluOf at h
  split at h <;> first | omega | cases h

theorem code_rspAdjust (delta : BitVec 8) :
    Code (Emission.rspAdjust delta).bytes (Emission.rspAdjust delta).instrs := by
  have hlo := delta.le_toInt
  have hhi := delta.toInt_lt
  simp only [Emission.bytes, Emission.instrs, emitRspAdjust]
  by_cases h : delta.toInt < 0
  · rw [if_pos h, if_pos h, if_pos h]
    exact code_aluImm (by decide) rfl (by unfold Int32; omega)
  · rw [if_neg h, if_neg h, if_neg h]
    exact code_aluImm (by decide) rfl (by unfold Int32; omega)

theorem Emission.code (e : Emission) : Code e.bytes e.instrs := by
  cases e with
  | movRr dst src =>
    by_cases h : dst = src
    · simpa [bytes, instrs, emitMovRr, h] using Code.nil
    · simpa [bytes, instrs, h] using code_movRr h
  | load dst base disp => exact code_load (int32_toInt disp)
  | store base disp src => exact code_store (int32_toInt disp)
  | storeImm32 base disp imm => exact code_storeImm32 (int32_toInt disp) (int32_toInt imm)
  | addMemReg base disp src => exact code_addMemReg (int32_toInt disp)
  | leaIdx8 dst base index h => exact code_leaIdx8 h
  | movImm64 reg imm => simpa [bytes, instrs] using code_movImm64 reg imm.toNat
  | movConst reg imm => simpa [bytes, instrs] using code_movConst reg imm.isLt
  | loadRaxAbs addr => simpa [bytes, instrs] using code_loadRaxAbs addr.toNat
  | storeRaxAbs addr => simpa [bytes, instrs] using code_storeRaxAbs addr.toNat
  | aluImm ext op h reg imm => exact code_aluImm (aluOf_lt h) h (int32_toInt imm)
  | addRr dst src => exact code_addRr dst src
  | subRr dst src => exact code_subRr dst src
  | cmpRr dst src => exact code_cmpRr dst src
  | testRr a b => exact code_testRr a b
  | xor32Rr dst src => exact code_xor32Rr dst src
  | imulImm reg imm => exact code_imulImm (int32_toInt imm)
  | imulRr dst src => exact code_imulRr dst src
  | shlImm reg n => exact code_shlImm reg n.isLt
  | setccZx cc reg => exact code_setccZx cc reg
  | push reg => exact code_push reg
  | pop reg => exact code_pop reg
  | callReg reg => exact code_callReg reg
  | rspAdjust delta => exact code_rspAdjust delta
  | ret => exact code_ret
  | leave => exact code_leave

/-- The decoder reads what every emitter means from its bytes, whatever bytes come behind. -/
theorem emitters_decode (e : Emission) (rest : Bytes) :
    decodeMany e.instrs.length (e.bytes ++ rest) = some (e.instrs, rest) :=
  e.code rest

end Cup
