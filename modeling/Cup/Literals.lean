/-
  Decimal literals (`frac` and `case T_NUMBER` of `src/parser.c`). The digits behind the dot are
  read as a number, and their count is recovered from that number: the digits in front of the
  first one that is not 0 are lost. So `D.F` denotes `D + F / 10 ^ k` exactly when `F` does not
  start with 0, or is 0 (`decimal_exact_iff`).
-/
import Mathlib.Algebra.Order.GroupWithZero.Basic
import Mathlib.Algebra.Order.Ring.Rat
import Mathlib.Data.Rat.Cast.Defs
import Mathlib.Tactic.IntervalCases
import Mathlib.Tactic.NormNum
import Mathlib.Tactic.Ring
import Cup.Definitions
import Cup.Progress

namespace Cup

open Lib (Stop Run)

/-! ## Digit strings -/

/-- Digits and underscores. -/
def Digits (p : Bytes) : Prop := ∀ c ∈ p, isDigit c ∨ c = 95

theorem digits_of_all {p : Bytes} (h : p.all fun c => isDigit c || c == 95) : Digits p := by
  intro c hc
  have hall := List.all_eq_true.mp h c hc
  rw [Bool.or_eq_true, beq_iff_eq] at hall
  exact hall

/-- The number of digits. -/
def digitCount (p : Bytes) : Nat := p.countP isDigit

/-- Each digit times the weight of its place. -/
def digitsValue : Bytes → Nat
  | [] => 0
  | c :: p =>
    if isDigit c then (c.toNat - 48) * 10 ^ digitCount p + digitsValue p else digitsValue p

theorem Digits.tail {c : UInt8} {p : Bytes} (h : Digits (c :: p)) : Digits p :=
  fun d hd => h d (List.mem_cons_of_mem c hd)

theorem digit_toNat {c : UInt8} (h : isDigit c) : 48 ≤ c.toNat ∧ c.toNat ≤ 57 := by
  unfold isDigit at h
  rw [Bool.and_eq_true, decide_eq_true_eq, decide_eq_true_eq] at h
  exact ⟨UInt8.le_iff_toNat_le.mp h.1, UInt8.le_iff_toNat_le.mp h.2⟩

theorem digitCount_digit {c : UInt8} (h : isDigit c) (p : Bytes) :
    digitCount (c :: p) = digitCount p + 1 :=
  List.countP_cons_of_pos h

theorem digitCount_other {c : UInt8} (h : ¬ isDigit c) (p : Bytes) :
    digitCount (c :: p) = digitCount p :=
  List.countP_cons_of_neg h

theorem digitsValue_digit {c : UInt8} (h : isDigit c) (p : Bytes) :
    digitsValue (c :: p) = (c.toNat - 48) * 10 ^ digitCount p + digitsValue p :=
  if_pos h

theorem digitsValue_other {c : UInt8} (h : ¬ isDigit c) (p : Bytes) :
    digitsValue (c :: p) = digitsValue p :=
  if_neg h

theorem digitsValue_lt (p : Bytes) : digitsValue p < 10 ^ digitCount p := by
  induction p with
  | nil => decide
  | cons c p ih =>
    by_cases hc : isDigit c
    · have hle : c.toNat - 48 ≤ 9 := by
        have := digit_toNat hc
        omega
      rw [digitsValue_digit hc, digitCount_digit hc]
      calc (c.toNat - 48) * 10 ^ digitCount p + digitsValue p
          < (c.toNat - 48) * 10 ^ digitCount p + 10 ^ digitCount p := Nat.add_lt_add_left ih _
        _ = (c.toNat - 48 + 1) * 10 ^ digitCount p := (Nat.succ_mul _ _).symm
        _ ≤ 10 * 10 ^ digitCount p := Nat.mul_le_mul_right _ (by omega)
        _ = 10 ^ (digitCount p + 1) := by rw [Nat.pow_succ, Nat.mul_comm]
    · rw [digitsValue_other hc, digitCount_other hc]
      exact ih

/-- A leading 0 adds nothing. -/
theorem digitsValue_zero (p : Bytes) : digitsValue (48 :: p) = digitsValue p := by
  rw [digitsValue_digit (by decide)]
  show 0 * 10 ^ digitCount p + digitsValue p = digitsValue p
  omega

/-- The first digit counts when it is not 0. -/
theorem le_digitsValue {c : UInt8} (hc : isDigit c) (h0 : c ≠ 48) (p : Bytes) :
    10 ^ digitCount p ≤ digitsValue (c :: p) := by
  have hne : c.toNat ≠ 48 := fun h => h0 (UInt8.toNat_inj.mp h)
  have hle : 1 ≤ c.toNat - 48 := by
    have := digit_toNat hc
    omega
  rw [digitsValue_digit hc]
  calc 10 ^ digitCount p = 1 * 10 ^ digitCount p := (Nat.one_mul _).symm
    _ ≤ (c.toNat - 48) * 10 ^ digitCount p := Nat.mul_le_mul_right _ hle
    _ ≤ _ := Nat.le_add_right _ _

theorem digitsValue_eq_zero_iff {p : Bytes} (h : Digits p) :
    digitsValue p = 0 ↔ ∀ c ∈ p, c = 48 ∨ c = 95 := by
  induction p with
  | nil => exact ⟨fun _ _ hc => (by cases hc), fun _ => rfl⟩
  | cons c p ih =>
    rw [List.forall_mem_cons, ← ih h.tail]
    by_cases hc : isDigit c
    · by_cases h0 : c = 48
      · rw [h0, digitsValue_zero]
        exact ⟨fun hp => ⟨.inl rfl, hp⟩, And.right⟩
      · have hle := le_digitsValue hc h0 p
        have hpos : 0 < 10 ^ digitCount p := Nat.pow_pos (by decide)
        constructor
        · intro hzero
          omega
        · rintro ⟨rfl | rfl, -⟩
          · exact absurd rfl h0
          · exact absurd hc (by decide)
    · rw [digitsValue_other hc]
      exact ⟨fun hp => ⟨.inr ((h c List.mem_cons_self).resolve_left hc), hp⟩, And.right⟩

/-- Digits end at a character that is neither a digit nor an underscore. -/
def DigitsEnd (rest : Bytes) : Prop := ∀ c ∈ rest.head?, ¬ (isDigit c ∨ c = 95)

/-- The loop of `numberChar` computes the value of a digit string modulo `2 ^ 64`. -/
theorem numberLoop_digits {p rest : Bytes} (hp : Digits p) (hrest : DigitsEnd rest) {v : Nat}
    (hv : v < 2 ^ 64) :
    numberLoop v (p ++ rest) = ((v * 10 ^ digitCount p + digitsValue p) % 2 ^ 64, rest) := by
  induction p generalizing v with
  | nil =>
    have hvalue : (v * 10 ^ digitCount [] + digitsValue []) % 2 ^ 64 = v := by
      show (v * 10 ^ 0 + 0) % 2 ^ 64 = v
      omega
    rw [hvalue, List.nil_append]
    cases rest with
    | nil => rfl
    | cons c rest =>
      have hc := hrest c rfl
      unfold numberLoop
      exact (if_neg fun h => hc (.inr h)).trans (if_neg fun h => hc (.inl h))
  | cons c p ih =>
    rw [List.cons_append]
    unfold numberLoop
    by_cases hc : isDigit c
    · have hu : c ≠ 95 := by
        rintro rfl
        exact absurd hc (by decide)
      have hmod : ∀ a b k : Nat, (a % 2 ^ 64 * k + b) % 2 ^ 64 = (a * k + b) % 2 ^ 64 := by
        intro a b k
        rw [Nat.add_mod, Nat.mod_mul_mod, ← Nat.add_mod]
      have hsum : (v * 10 + (c.toNat - 48)) * 10 ^ digitCount p + digitsValue p =
          v * 10 ^ (digitCount p + 1) + ((c.toNat - 48) * 10 ^ digitCount p + digitsValue p) := by
        ring
      rw [digitCount_digit hc, digitsValue_digit hc, ← hsum]
      refine (if_neg hu).trans ((if_pos hc).trans ?_)
      rw [ih hp.tail (Nat.mod_lt _ (by decide)), hmod]
    · have hu : c = 95 := (hp c List.mem_cons_self).resolve_left hc
      rw [digitCount_other hc, digitsValue_other hc]
      exact (if_pos hu).trans (ih hp.tail hv)

/-- Below `2 ^ 64` nothing is lost. -/
theorem numberChar_digits {p rest : Bytes} (hp : Digits p) (hrest : DigitsEnd rest)
    (hlt : digitsValue p < 2 ^ 64) : numberChar (p ++ rest) = (digitsValue p, rest) := by
  have hvalue : (0 * 10 ^ digitCount p + digitsValue p) % 2 ^ 64 = digitsValue p := by
    rw [Nat.zero_mul, Nat.zero_add, Nat.mod_eq_of_lt hlt]
  rw [numberChar, numberLoop_digits hp hrest (by decide), hvalue]

/-! ## Fractions -/

theorem frac_zero : frac 0 = 0 := if_pos rfl

/-- The quotient of `frac` has the number of digits that are left of `F`. -/
theorem frac_eq_iff {n k : Nat} (hn : n < 10 ^ k) :
    frac n = (n : Rat) / (10 : Rat) ^ k ↔ n = 0 ∨ 10 ^ k ≤ 10 * n := by
  by_cases h0 : n = 0
  · rw [h0, frac_zero]
    simp
  have hpos : 0 < k := by
    rcases Nat.eq_zero_or_pos k with rfl | hk
    · omega
    · exact hk
  have hne : (n : Rat) ≠ 0 := Nat.cast_ne_zero.mpr h0
  have hle : (Nat.toDigits 10 n).length ≤ k :=
    (Nat.length_toDigits_le_iff (by decide) hpos).mpr hn
  have hlen : (Nat.toDigits 10 n).length = k ↔ 10 ^ k ≤ 10 * n := by
    obtain ⟨j, rfl⟩ := Nat.exists_eq_succ_of_ne_zero (Nat.ne_of_gt hpos)
    have hten : 10 ^ (j + 1) ≤ 10 * n ↔ 10 ^ j ≤ n := by
      rw [Nat.pow_succ]
      omega
    rcases Nat.eq_zero_or_pos j with rfl | hj
    · have hone := Nat.length_toDigits_pos (b := 10) (n := n)
      constructor
      · intro _
        omega
      · intro _
        omega
    · have hj' := Nat.length_toDigits_le_iff (b := 10) (n := n) (k := j) (by decide) hj
      show _ = j + 1 ↔ 10 ^ (j + 1) ≤ 10 * n
      rw [hten]
      omega
  have hfrac : frac n = (n : Rat) / (10 : Rat) ^ (Nat.toDigits 10 n).length := by
    rw [frac, if_neg h0]
    push_cast
    rfl
  rw [hfrac, ← hlen, or_iff_right h0, div_eq_mul_inv, div_eq_mul_inv, mul_right_inj' hne, inv_inj]
  exact pow_right_inj₀ (by norm_num) (by norm_num)

/-- A fraction keeps its value exactly when it starts with another digit than 0, or is 0. -/
theorem frac_digits_iff {F : Bytes} (hF : Digits F) (hfirst : ∀ c ∈ F.head?, isDigit c) :
    frac (digitsValue F) = (digitsValue F : Rat) / (10 : Rat) ^ digitCount F ↔
      F.head? ≠ some 48 ∨ ∀ c ∈ F, c = 48 ∨ c = 95 := by
  rw [frac_eq_iff (digitsValue_lt F), ← digitsValue_eq_zero_iff hF]
  cases F with
  | nil => exact ⟨fun _ => .inr rfl, fun _ => .inl rfl⟩
  | cons c p =>
    have hc := hfirst c rfl
    rw [List.head?_cons, ne_eq, Option.some.injEq, or_comm]
    refine or_congr_left' fun h0 => ?_
    rw [digitCount_digit hc, Nat.pow_succ]
    by_cases hz : c = 48
    · have hlt := digitsValue_lt p
      rw [hz, digitsValue_zero]
      constructor
      · intro hle
        omega
      · intro hne
        exact absurd rfl hne
    · have hle := le_digitsValue hc hz p
      constructor
      · intro _
        exact hz
      · intro _
        omega

/-! ## Tokens -/

/-- `getToken` scans the text `p` behind the blanks. -/
theorem getToken_eq_scan {s : CUPState} (h : s.InWalk) (space : Bool) {p : Bytes}
    (hp : s.input.dropWhile (isBlank space) = p) :
    ∃ loc s', getToken space s = .ok () s' ∧ s'.InWalk ∧
      s' = scanToken { s with input := p, priv := some p, nodes := ⟨loc, .value 0⟩ } p := by
  obtain ⟨s', hget, hf⟩ := getToken_ok space h
  obtain ⟨pre, hpriv, hw⟩ := h
  obtain ⟨loc, hcatch⟩ := catchUp_ok hw (n := (pre ++ s.input).length + 1)
    (by rw [List.length_append]; omega) s.nodes.loc
  refine ⟨{ loc with col := (loc.col + (s.input.length - p.length)) % 2 ^ 16 }, s', hget, hf.walk, ?_⟩
  unfold getToken at hget
  dsimp only at hget
  rw [hpriv, hcatch, hp] at hget
  exact (Lib.Res.ok.inj hget).2.symm

/-- Behind a first 0 there is no `b`, `o` or `x`. -/
def NoBase (p : Bytes) : Prop := p.head? = some 48 → zeroChar (p.drop 1) = none

theorem scanToken_number (s : CUPState) {p : Bytes} (hd : ∀ c ∈ p.head?, isDigit c) (hne : p ≠ [])
    (hbase : NoBase p) :
    scanToken s p = { s with
      input := (numberChar p).2
      nodes := { s.nodes.setToken .tNumber with payload := .value (numberChar p).1 } } := by
  cases p with
  | nil => exact absurd rfl hne
  | cons c rest =>
    have hc := hd c rfl
    have h0 : c ≠ 0 := by
      rintro rfl
      exact absurd hc (by decide)
    have h34 : c ≠ 34 := by
      rintro rfl
      exact absurd hc (by decide)
    have hzero : (if c = 48 then zeroChar rest else none) = none := by
      by_cases h48 : c = 48
      · rw [if_pos h48]
        exact hbase (by rw [h48]; rfl)
      · exact if_neg h48
    unfold scanToken
    dsimp only
    rw [if_neg h0, if_neg h34, hzero]
    exact if_pos hc

/-- No other token is a number. -/
theorem isDigit_of_number (s : CUPState) {p : Bytes} (h : (scanToken s p).token = .tNumber) :
    ∀ c ∈ p.head?, isDigit c := by
  intro c hc
  cases p with
  | nil => cases hc
  | cons d rest =>
    obtain rfl : d = c := Option.some.inj hc
    by_contra hdigit
    have h48 : d ≠ 48 := by
      rintro rfl
      exact hdigit (by decide)
    have hlist : ∀ l : List CTType, .tNumber ∉ l → ∀ i, l.getD i .tEof ≠ .tNumber := by
      intro l hl i
      rw [List.getD_eq_getElem?_getD]
      cases hi : l[i]? with
      | none => decide
      | some t =>
        rintro rfl
        exact hl (List.mem_of_getElem? hi)
    have hid : ∀ (s' : CUPState) (str : Bytes), (idToken s' str).1.token ≠ .tNumber := by
      intro s' str
      unfold idToken
      cases hk : keyword str with
      | none =>
        show CTType.tIdentifier ≠ .tNumber
        decide
      | some t =>
        have ht : t ≠ .tNumber := by
          unfold keyword at hk
          repeat' split at hk
          all_goals cases hk
          all_goals decide
        exact ht
    revert h
    unfold scanToken
    dsimp only
    rw [if_neg h48]
    change (_ : CUPState).token ≠ .tNumber
    split
    · exact CTType.noConfusion
    · split
      · exact CTType.noConfusion
      · dsimp only
        split
        · split
          · exact CTType.noConfusion
          · exact CTType.noConfusion
        · split
          · exact CTType.noConfusion
          · split
            · split
              · exact hlist _ (by decide) _
              · exact hlist _ (by decide) _
            · split
              · exact hlist _ (by decide) _
              · exact hid _ _

theorem scanToken_dot (s : CUPState) {rest : Bytes} (h : ∀ q, rest ≠ 46 :: 46 :: q) :
    scanToken s (46 :: rest) = { s with input := rest, nodes := s.nodes.setToken .tDot } := by
  have h48 : (if (46 : UInt8) = 48 then zeroChar rest else none) = none := if_neg (by decide)
  unfold scanToken
  dsimp only
  rw [if_neg (by decide), if_neg (by decide), h48]
  refine (if_neg (by decide)).trans ((if_pos rfl).trans ?_)
  split
  · rename_i q
    exact absurd rfl (h q)
  · rfl

/-! ## The literal -/

theorem zeroChar_digits {p : Bytes} (h : isDigit (peekChar p) ∨ peekChar p = 95 ∨ peekChar p = 46) :
    zeroChar p = none := by
  have hbits : ∀ c : UInt8, isDigit c ∨ c = 95 ∨ c = 46 →
      c ||| 32 ≠ 98 ∧ c ||| 32 ≠ 111 ∧ c ||| 32 ≠ 120 := by
    rintro c (hc | rfl | rfl)
    · obtain ⟨hle, hge⟩ := digit_toNat hc
      have hcases : ∀ n, 48 ≤ n → n ≤ 57 → (UInt8.ofNat n) ||| 32 ≠ 98 ∧ (UInt8.ofNat n) ||| 32 ≠ 111 ∧
          (UInt8.ofNat n) ||| 32 ≠ 120 := by
        intro n hle hge
        interval_cases n <;> decide
      have hof := hcases c.toNat hle hge
      rwa [UInt8.ofNat_toNat] at hof
    · decide
    · decide
  obtain ⟨hb, ho, hx⟩ := hbits _ h
  unfold zeroChar
  exact (if_neg hb).trans ((if_neg ho).trans (if_neg hx))

/-- `D.F` with the text `rest` behind it: digits and underscores that start with a digit, a dot,
    and nothing or such digits again. The literal ends at `rest`. -/
structure Decimal (D F rest : Bytes) : Prop where
  whole : Digits D
  first : ∃ c ∈ D.head?, isDigit c
  fraction : Digits F
  fractionFirst : ∀ c ∈ F.head?, isDigit c
  /-- Two more dots make another token, and a number behind blanks would be the fraction. -/
  bare : F = [] → (∀ q, rest ≠ 46 :: 46 :: q) ∧
    ∀ c ∈ (rest.dropWhile (isBlank true)).head?, ¬ isDigit c
  /-- Neither another digit nor the letter of a base belongs to the fraction. -/
  ends : F ≠ [] → DigitsEnd rest ∧ NoBase (F ++ rest)

/-- `D + F / 10 ^ k` for `k` digits of `F`. -/
def decimalValue (D F : Bytes) : Rat := digitsValue D + digitsValue F / (10 : Rat) ^ digitCount F

variable {D F rest : Bytes}

/-- The fraction starts with another digit than 0, or has no other digit. -/
def NoLeadingZero (F : Bytes) : Prop := F.head? ≠ some 48 ∨ ∀ c ∈ F, c = 48 ∨ c = 95

theorem digitsEnd_dot (q : Bytes) : DigitsEnd (46 :: q) := by
  intro c hc
  obtain rfl : 46 = c := Option.some.inj hc
  decide

theorem not_blank_of_digit {c : UInt8} (h : isDigit c) (space : Bool) : ¬ isBlank space c := by
  intro hb
  have hcases : c = 32 ∨ c = 9 ∨ c = 10 ∨ c = 13 := by
    unfold isBlank at hb
    cases space <;> simp at hb <;> tauto
  rcases hcases with rfl | rfl | rfl | rfl <;> exact absurd h (by decide)

/-- The token of the digits in front of the dot. -/
theorem scanToken_whole (s : CUPState) (h : Decimal D F rest) (hD : digitsValue D < 2 ^ 64) :
    scanToken s (D ++ 46 :: (F ++ rest)) = { s with
      input := 46 :: (F ++ rest)
      nodes := { s.nodes.setToken .tNumber with payload := .value (digitsValue D) } } := by
  obtain ⟨c, hc, hdigit⟩ := h.first
  obtain ⟨D', rfl⟩ : ∃ D', D = c :: D' := List.head?_eq_some_iff.mp hc
  have hbase : NoBase (c :: D' ++ 46 :: (F ++ rest)) := by
    intro _
    refine zeroChar_digits ?_
    cases D' with
    | nil => exact .inr (.inr rfl)
    | cons d D' =>
      exact (h.whole.tail d List.mem_cons_self).elim .inl fun hu => .inr (.inl hu)
  have hfirst : ∀ d ∈ (c :: D' ++ 46 :: (F ++ rest)).head?, isDigit d := by
    intro d hd
    obtain rfl : c = d := Option.some.inj hd
    exact hdigit
  rw [scanToken_number s hfirst (by simp) hbase, numberChar_digits h.whole (digitsEnd_dot _) hD]

/-- What `primary` makes of the literal: the fraction is what `frac` makes of its value. -/
theorem operand_decimal {s : CUPState} (hs : s.InWalk) (h : Decimal D F rest) {space : Bool}
    (hin : s.input.dropWhile (isBlank space) = D ++ 46 :: (F ++ rest))
    (hD : digitsValue D < 2 ^ 64) (hF : digitsValue F < 2 ^ 64) (host : Host) (k : Nat)
    (rec : Nat → Comp Nodes) :
    ∃ s' v s'' loc, getToken space s = .ok () s' ∧
      operand host k rec s'.nodes s' = .ok (v, false) s'' ∧
      v.items = [.tok loc, .dvalue (digitsValue D + frac (digitsValue F))] ∧
      loc.token = .tDouble := by
  obtain ⟨loc, s', hget, hwalk, hs'⟩ := getToken_eq_scan hs space hin
  rw [scanToken_whole _ h hD] at hs'
  have hnodes : s'.nodes = ⟨{ loc with token := .tNumber }, .value (digitsValue D)⟩ := by
    rw [hs']
    rfl
  have hinput : s'.input = 46 :: (F ++ rest) := by rw [hs']
  -- the dot
  have hdot : s'.input.dropWhile (isBlank true) = 46 :: (F ++ rest) := by
    rw [hinput]
    exact List.dropWhile_cons_of_neg (by decide)
  have hsingle : ∀ q, F ++ rest ≠ 46 :: 46 :: q := by
    intro q hq
    cases hFc : F with
    | nil =>
      rw [hFc] at hq
      exact (h.bare hFc).1 q hq
    | cons c F' =>
      rw [hFc] at hq
      have hc := h.fractionFirst c (by rw [hFc]; rfl)
      rw [(List.cons.inj hq).1] at hc
      exact absurd hc (by decide)
  obtain ⟨loc₁, s₁, hget₁, hwalk₁, hs₁⟩ := getToken_eq_scan hwalk true hdot
  rw [scanToken_dot _ hsingle] at hs₁
  have htoken₁ : s₁.token = .tDot := by
    rw [hs₁]
    rfl
  have hinput₁ : s₁.input = F ++ rest := by rw [hs₁]
  -- the fraction, if there is one
  have hcase : ∃ v s'', numberCase s'.nodes s' = .ok v s'' ∧
      v.items = [.tok { loc with token := .tDouble },
        .dvalue (digitsValue D + frac (digitsValue F))] := by
    have hnumber : ∀ s₂, getToken true s₁ = .ok () s₂ → numberCase s'.nodes s' =
        (if s₂.token = .tNumber then
          getToken true >>= fun _ => pushNode2 {} { s'.nodes.setToken .tDouble with
            payload := .dvalue ((digitsValue D : Rat) + frac s₂.nodes.payload.val) }
        else pushNode2 {} { s'.nodes.setToken .tDouble with
          payload := .dvalue (digitsValue D : Rat) }) s₂ := by
      intro s₂ hget₂
      unfold numberCase
      rw [Run.bind_of_ok hget₁, Run.get_bind, if_pos htoken₁]
      dsimp only
      rw [Run.bind_of_ok hget₂, Run.get_bind, hnodes]
      rfl
    cases hFc : F with
    | nil =>
      obtain ⟨loc₂, s₂, hget₂, -, hs₂⟩ := getToken_eq_scan hwalk₁ true rfl
      rw [hinput₁, hFc, List.nil_append] at hs₂
      have hne : s₂.token ≠ .tNumber := by
        intro htok
        rw [hs₂] at htok
        have hd := isDigit_of_number _ htok
        cases hr : (rest.dropWhile (isBlank true)).head? with
        | none =>
          rw [List.head?_eq_none_iff.mp hr] at htok
          cases htok
        | some c => exact (h.bare hFc).2 c hr (hd c hr)
      have hzero : (digitsValue D : Rat) + frac (digitsValue []) = digitsValue D := by
        rw [digitsValue, frac_zero, add_zero]
      obtain ⟨c, hpush⟩ := pushNode2_eq (.inl rfl) { s'.nodes.setToken .tDouble with
        payload := .dvalue (digitsValue D : Rat) }
      refine ⟨_, s₂, by rw [hnumber s₂ hget₂, if_neg hne, hpush]; rfl, ?_⟩
      rw [hnodes, hzero]
      rfl
    | cons c F' =>
      obtain ⟨hend, hbase⟩ := h.ends (by rw [hFc]; exact List.cons_ne_nil _ _)
      have hc := h.fractionFirst c (by rw [hFc]; rfl)
      have hblank : s₁.input.dropWhile (isBlank true) = F ++ rest := by
        rw [hinput₁, hFc]
        exact List.dropWhile_cons_of_neg (not_blank_of_digit hc true)
      obtain ⟨loc₂, s₂, hget₂, hwalk₂, hs₂⟩ := getToken_eq_scan hwalk₁ true hblank
      have hfirst : ∀ d ∈ (F ++ rest).head?, isDigit d := by
        rw [hFc]
        intro d hd
        obtain rfl : c = d := Option.some.inj hd
        exact hc
      rw [scanToken_number _ hfirst (by rw [hFc]; simp) hbase,
        numberChar_digits h.fraction hend hF] at hs₂
      have htoken₂ : s₂.token = .tNumber := by
        rw [hs₂]
        rfl
      have hvalue : s₂.nodes.payload.val = digitsValue F := by
        rw [hs₂]
        rfl
      obtain ⟨s₃, hget₃, -⟩ := getToken_ok true hwalk₂
      obtain ⟨c', hpush⟩ := pushNode2_eq (.inl rfl) { s'.nodes.setToken .tDouble with
        payload := .dvalue ((digitsValue D : Rat) + frac s₂.nodes.payload.val) }
      refine ⟨_, s₃, by rw [hnumber s₂ hget₂, if_pos htoken₂, Run.bind_of_ok hget₃, hpush]; rfl, ?_⟩
      rw [hvalue, hnodes, ← hFc]
      rfl
  obtain ⟨v, s'', hrun, hitems⟩ := hcase
  have hoperand : operand host k rec s'.nodes =
      numberCase s'.nodes >>= fun v => pure (v, false) := by
    rw [hnodes]
    rfl
  refine ⟨s', v, s'', { loc with token := .tDouble }, hget, ?_, hitems, rfl⟩
  rw [hoperand, Run.bind_of_ok hrun]
  rfl

/-- `primary` reads the literal as a `T_DOUBLE` node with its value. -/
def ReadsExactly (host : Host) (k : Nat) (rec : Nat → Comp Nodes) (s : CUPState) (space : Bool)
    (D F : Bytes) : Prop :=
  ∃ s' v s'' loc, getToken space s = .ok () s' ∧
    operand host k rec s'.nodes s' = .ok (v, false) s'' ∧
    v.items = [.tok loc, .dvalue (decimalValue D F)] ∧ loc.token = .tDouble

theorem readsExactly_iff_frac {s : CUPState} (hs : s.InWalk) (h : Decimal D F rest) {space : Bool}
    (hin : s.input.dropWhile (isBlank space) = D ++ 46 :: (F ++ rest))
    (hD : digitsValue D < 2 ^ 64) (hF : digitsValue F < 2 ^ 64) (host : Host) (k : Nat)
    (rec : Nat → Comp Nodes) :
    ReadsExactly host k rec s space D F ↔
      frac (digitsValue F) = (digitsValue F : Rat) / (10 : Rat) ^ digitCount F := by
  obtain ⟨s', v, s'', loc, hget, hrun, hitems, htoken⟩ := operand_decimal hs h hin hD hF host k rec
  constructor
  · rintro ⟨t', w, t'', loc', hget', hrun', hitems', -⟩
    obtain rfl : s' = t' := (Lib.Res.ok.inj (hget.symm.trans hget')).2
    obtain ⟨hv, -⟩ := Prod.mk.inj (Lib.Res.ok.inj (hrun.symm.trans hrun')).1
    rw [← hv, hitems] at hitems'
    have hvalue : (digitsValue D : Rat) + frac (digitsValue F) = decimalValue D F := by
      obtain ⟨-, htail⟩ := List.cons.inj hitems'
      exact Node.dvalue.inj (List.cons.inj htail).1
    exact add_left_cancel hvalue
  · intro hfrac
    refine ⟨s', v, s'', loc, hget, hrun, ?_, htoken⟩
    rw [hitems, hfrac, decimalValue]

/-- A decimal literal is read with its value exactly when its fraction has no leading 0. -/
theorem decimal_exact_iff {s : CUPState} (hs : s.InWalk) (h : Decimal D F rest) {space : Bool}
    (hin : s.input.dropWhile (isBlank space) = D ++ 46 :: (F ++ rest))
    (hD : digitsValue D < 2 ^ 64) (hF : digitsValue F < 2 ^ 64) (host : Host) (k : Nat)
    (rec : Nat → Comp Nodes) :
    ReadsExactly host k rec s space D F ↔ NoLeadingZero F := by
  rw [readsExactly_iff_frac hs h hin hD hF]
  exact frac_digits_iff h.fraction h.fractionFirst

/-- A literal `1.F` at the end of the text. -/
theorem decimal_of_fraction {F : Bytes} (hne : F ≠ []) (hF : F.all isDigit) (hbase : NoBase F) :
    Decimal (ascii ['1']) F [] where
  whole := digits_of_all (by decide)
  first := ⟨49, rfl, by decide⟩
  fraction c hc := .inl (List.all_eq_true.mp hF c hc)
  fractionFirst c hc := List.all_eq_true.mp hF c (List.mem_of_mem_head? hc)
  bare h := absurd h hne
  ends _ := by
    rw [List.append_nil]
    exact ⟨fun c hc => (by cases hc), hbase⟩

/-- At `1.5`. -/
theorem decimal_exact_iff_oneFive :
    ReadsExactly bareHost 0 (fun _ => Run.stop .fuel)
      { newState with input := ascii ['1', '.', '5'] } true (ascii ['1']) (ascii ['5']) ↔
    NoLeadingZero (ascii ['5']) :=
  decimal_exact_iff ⟨[], rfl, whole_nil _⟩
    (decimal_of_fraction (by decide) (by decide) (by unfold NoBase; decide)) rfl
    (by decide) (by decide) bareHost 0 _

/-- The literal `1.05` is well formed, and it is read as 1.5. -/
theorem not_readsExactly_oneZeroFive :
    Decimal (ascii ['1']) (ascii ['0', '5']) [] ∧
    ¬ ReadsExactly bareHost 0 (fun _ => Run.stop .fuel)
      { newState with input := ascii ['1', '.', '0', '5'] } true (ascii ['1']) (ascii ['0', '5']) := by
  have hdec : Decimal (ascii ['1']) (ascii ['0', '5']) [] :=
    decimal_of_fraction (by decide) (by decide) (by unfold NoBase; decide)
  refine ⟨hdec, fun hreads => ?_⟩
  rw [readsExactly_iff_frac ⟨[], rfl, whole_nil _⟩ hdec rfl (by decide) (by decide)] at hreads
  exact absurd hreads (by decide +kernel)

end Cup
