/-
  The literal pool `state->data` over whole runs of the lexer and of the array storage the
  parser reserves.

  `getdata` shares storage by finding the last place where the characters of a literal occur,
  without looking at what follows them. A literal is read back as lexed exactly when that
  place is followed by a NUL (`EndsEntry`): the characters are then the end of an earlier
  literal. Otherwise the string at the stored offset is longer than the literal, or, for an
  empty literal, the offset is the end of the pool. `poolFaithful_iff_cleanRun` is the
  equivalence over runs; `poolRun_grows` says that no byte of the pool ever changes.
-/
import Mathlib.Data.List.TakeWhile
import Mathlib.Data.List.Induction
import Cup.Lexer

namespace Cup

open Lib (Stop Run)

/-! ## Strings in the pool -/

/-- The NUL-terminated string at offset `off`. -/
def cstring (data : Bytes) (off : Nat) : Option Bytes :=
  if 0 ∈ data.drop off then some ((data.drop off).takeWhile (· ≠ 0)) else none

theorem takeWhile_ne_zero_append {str rest : Bytes} (h : 0 ∉ str) :
    (str ++ 0 :: rest).takeWhile (· ≠ 0) = str := by
  induction str with
  | nil => rfl
  | cons c str ih =>
    have hc : c ≠ 0 := fun e => h (by simp [e])
    have hs : 0 ∉ str := fun e => h (List.mem_cons_of_mem _ e)
    simp only [List.cons_append, List.takeWhile_cons, hc, ne_eq, not_false_eq_true, decide_true,
      if_true, ih hs]

theorem exists_split_of_zero_mem {l : Bytes} (h : 0 ∈ l) :
    ∃ rest, l = l.takeWhile (· ≠ 0) ++ 0 :: rest := by
  induction l with
  | nil => simp at h
  | cons c l ih =>
    by_cases hc : c = 0
    · exact ⟨l, by simp [hc]⟩
    · have hl : 0 ∈ l := by
        rcases List.mem_cons.mp h with e | e
        · exact absurd e.symm hc
        · exact e
      obtain ⟨rest, hr⟩ := ih hl
      refine ⟨rest, ?_⟩
      simp only [List.takeWhile_cons, hc, ne_eq, not_false_eq_true, decide_true, if_true,
        List.cons_append]
      rw [← hr]

theorem cstring_eq_some_iff {data str : Bytes} {off : Nat} :
    cstring data off = some str ↔ 0 ∉ str ∧ ∃ rest, data.drop off = str ++ 0 :: rest := by
  unfold cstring
  constructor
  · intro h
    split at h
    · next hz =>
      have hs : (data.drop off).takeWhile (· ≠ 0) = str := by simpa using h
      obtain ⟨rest, hr⟩ := exists_split_of_zero_mem hz
      refine ⟨?_, rest, by rw [← hs]; exact hr⟩
      rw [← hs]
      intro hm
      simpa using List.mem_takeWhile_imp hm
    · exact absurd h (by simp)
  · rintro ⟨h0, rest, hr⟩
    rw [hr, if_pos (by simp), takeWhile_ne_zero_append h0]

theorem cstring_length_lt {data str : Bytes} {off : Nat} (h : cstring data off = some str) :
    off + str.length < data.length := by
  obtain ⟨-, rest, hr⟩ := cstring_eq_some_iff.mp h
  have := congrArg List.length hr
  simp only [List.length_drop, List.length_append, List.length_cons] at this
  omega

/-- The byte behind the characters of a string is its NUL. -/
theorem cstring_terminator {data str : Bytes} {off : Nat} (h : cstring data off = some str) :
    data[off + str.length]? = some 0 := by
  obtain ⟨-, rest, hr⟩ := cstring_eq_some_iff.mp h
  rw [← List.getElem?_drop, hr]
  simp

theorem cstring_append {data more str : Bytes} {off : Nat} (h : cstring data off = some str) :
    cstring (data ++ more) off = some str := by
  have hlt := cstring_length_lt h
  obtain ⟨h0, rest, hr⟩ := cstring_eq_some_iff.mp h
  refine cstring_eq_some_iff.mpr ⟨h0, rest ++ more, ?_⟩
  rw [List.drop_append_of_le_length (by omega), hr]
  simp

/-! ## The search -/

/-- `str` occurs in `data` at `k`. -/
def OccursAt (data str : Bytes) (k : Nat) : Prop :=
  k + str.length ≤ data.length ∧ (data.drop k).take str.length = str

/-- `k` is the last place where `str` occurs. -/
def LastAt (data str : Bytes) (k : Nat) : Prop :=
  OccursAt data str k ∧ ∀ j, OccursAt data str j → j ≤ k

/-- The pool is empty, or the last occurrence of `str`, if there is one, ends at a NUL. -/
def EndsEntry (data str : Bytes) : Prop :=
  data = [] ∨ ∀ k, LastAt data str k → data[k + str.length]? = some 0

theorem getdataLoop_some {data str : Bytes} {n k : Nat} (hn : n + str.length ≤ data.length)
    (h : getdataLoop data str n = some k) :
    OccursAt data str k ∧ ∀ j ≤ n, OccursAt data str j → j ≤ k := by
  induction n with
  | zero =>
    simp only [getdataLoop] at h
    split at h
    · next hm =>
      obtain rfl : 0 = k := by simpa using h
      exact ⟨⟨by omega, by simpa [matchesAt] using hm⟩, fun j hj _ => hj⟩
    · exact absurd h (by simp)
  | succ n ih =>
    simp only [getdataLoop] at h
    split at h
    · next hm =>
      obtain rfl : n + 1 = k := by simpa using h
      exact ⟨⟨hn, by simpa [matchesAt] using hm⟩, fun j hj _ => hj⟩
    · next hm =>
      obtain ⟨hk, hlast⟩ := ih (by omega) h
      refine ⟨hk, fun j hj hocc => ?_⟩
      rcases Nat.lt_or_eq_of_le hj with hj | rfl
      · exact hlast j (by omega) hocc
      · exact absurd (by simpa [matchesAt] using hocc.2) hm

theorem getdataLoop_none {data str : Bytes} {n : Nat} (h : getdataLoop data str n = none) :
    ∀ j ≤ n, ¬ OccursAt data str j := by
  induction n with
  | zero =>
    simp only [getdataLoop] at h
    split at h
    · exact absurd h (by simp)
    · next hm =>
      intro j hj hocc
      obtain rfl : j = 0 := by omega
      exact hm (by simpa [matchesAt] using hocc.2)
  | succ n ih =>
    simp only [getdataLoop] at h
    split at h
    · exact absurd h (by simp)
    · next hm =>
      intro j hj hocc
      rcases Nat.lt_or_eq_of_le hj with hj | rfl
      · exact ih h j (by omega) hocc
      · exact hm (by simpa [matchesAt] using hocc.2)

/-- `getdata` finds the last occurrence in a pool that is not empty. -/
theorem getdata_eq_some_iff {data str : Bytes} {k : Nat} :
    getdata data str = some k ↔ data ≠ [] ∧ LastAt data str k := by
  unfold getdata
  constructor
  · intro h
    split at h
    · exact absurd h (by simp)
    · next hlen =>
      split at h
      · exact absurd h (by simp)
      · next hne =>
        obtain ⟨hk, hlast⟩ := getdataLoop_some (by omega) h
        exact ⟨hne, hk, fun j hj => hlast j (by have := hj.1; omega) hj⟩
  · rintro ⟨hne, hk, hlast⟩
    have hlen := hk.1
    rw [if_neg (by omega), if_neg hne]
    cases hg : getdataLoop data str (data.length - str.length) with
    | none => exact absurd hk (getdataLoop_none hg k (by omega))
    | some j =>
      obtain ⟨hj, hjl⟩ := getdataLoop_some (by omega) hg
      have h1 := hlast j hj
      have h2 := hjl k (by omega) hk
      rw [show j = k by omega]

/-! ## Runs -/

/-- What a run has placed in the pool: a literal with its offset and characters, or the
    storage of an array. -/
inductive Use where
  | literal (off : Nat) (str : Bytes)
  | array (off len : Nat)
  deriving DecidableEq

/-- A compiler state and what was placed in its pool. -/
structure PoolState where
  state : CUPState
  uses : List Use := []

/-- What can happen to the pool: a token is read, an array of `len` slots is reserved, or the
    text of another module becomes the input. -/
inductive PoolOp where
  | token (space : Bool)
  | array (len : Nat)
  | source (text : Bytes)

/-- The characters of the literal that the next token is, if it is one. -/
def nextLiteral (space : Bool) (s : CUPState) : Option Bytes :=
  match s.input.dropWhile (isBlank space) with
  | 34 :: p => some (stringChars p).1
  | _ => none

def poolStep (c : PoolState) : PoolOp → Option PoolState
  | .token space =>
    match getToken space c.state with
    | .ok _ s => some
      { state := s
        uses := match nextLiteral space c.state with
          | some str => c.uses ++ [.literal s.nodes.payload.val str]
          | none => c.uses }
    | .stop _ _ => none
  | .array len => some
    { state := { c.state with data := reserveArray c.state.data len }
      uses := c.uses ++ [.array c.state.data.length (len * 8)] }
  | .source text => some { c with state := { c.state with input := text, priv := none } }

def poolRun (c : PoolState) : List PoolOp → Option PoolState
  | [] => some c
  | op :: ops => (poolStep c op).bind (poolRun · ops)

theorem poolRun_append {c : PoolState} {ops more : List PoolOp} :
    poolRun c (ops ++ more) = (poolRun c ops).bind (poolRun · more) := by
  induction ops generalizing c with
  | nil => rfl
  | cons op ops ih =>
    simp only [List.cons_append, poolRun]
    cases poolStep c op with
    | none => rfl
    | some c' => exact ih

/-! ## One step -/

theorem zero_not_mem_stringChars (p : Bytes) : 0 ∉ (stringChars p).1 := by
  induction p with
  | nil => simp [stringChars]
  | cons c p ih =>
    unfold stringChars
    split
    · simp
    · next hc =>
      split
      · simp
      · intro hm
        rcases List.mem_cons.mp hm with e | e
        · exact hc e.symm
        · exact ih e

theorem zero_not_mem_nextLiteral {space : Bool} {s : CUPState} {str : Bytes}
    (h : nextLiteral space s = some str) : 0 ∉ str := by
  unfold nextLiteral at h
  split at h
  · obtain rfl := Option.some.inj h
    exact zero_not_mem_stringChars _
  · exact absurd h (by simp)

theorem scanToken_data_of_ne {s : CUPState} {p : Bytes} (h : ∀ q, p ≠ 34 :: q) :
    (scanToken s p).data = s.data := by
  unfold scanToken
  cases p with
  | nil => rfl
  | cons c rest =>
    have hc : c ≠ 34 := fun e => h rest (by rw [e])
    dsimp only
    rw [if_neg hc]
    (repeat' split) <;> try rfl
    unfold idToken
    split <;> rfl

/-- A token that is no literal leaves the pool alone. -/
theorem getToken_data_none {space : Bool} {s s' : CUPState}
    (hl : nextLiteral space s = none) (h : getToken space s = .ok () s') : s'.data = s.data := by
  unfold getToken at h
  dsimp only at h
  split at h
  · exact absurd h (by simp)
  · obtain rfl : _ = s' := by simpa using h
    rw [scanToken_data_of_ne]
    intro q hq
    simp [nextLiteral, hq] at hl

/-- A literal is interned. -/
theorem getToken_data_some {space : Bool} {s s' : CUPState} {str : Bytes}
    (hl : nextLiteral space s = some str) (h : getToken space s = .ok () s') :
    s'.data = (internString s.data str).2 ∧
      s'.nodes.payload.val = (internString s.data str).1 := by
  unfold nextLiteral at hl
  split at hl
  · next p hp =>
    obtain rfl := Option.some.inj hl
    unfold getToken at h
    dsimp only at h
    split at h
    · exact absurd h (by simp)
    · obtain rfl : _ = s' := by simpa using h
      rw [hp]
      exact ⟨rfl, rfl⟩
  · exact absurd hl (by simp)

/-! ## The invariant of the pool -/

/-- What every run keeps: the pool is empty or ends with a NUL, array storage is zero, and an
    array begins where the pool began or behind a NUL. -/
structure PoolInv (c : PoolState) : Prop where
  ends : c.state.data = [] ∨ c.state.data[c.state.data.length - 1]? = some 0
  zero : ∀ {a n i}, .array a n ∈ c.uses → a ≤ i → i < a + n → c.state.data[i]? = some 0
  start : ∀ {a n}, .array a n ∈ c.uses → a = 0 ∨ c.state.data[a - 1]? = some 0

/-- Every literal is where its token says, and shares no byte with an array. -/
structure Faithful (c : PoolState) : Prop where
  valid : ∀ {off str}, .literal off str ∈ c.uses → getData c.state off = some off
  reads : ∀ {off str}, .literal off str ∈ c.uses → cstring c.state.data off = some str
  disjoint : ∀ {off str a n}, .literal off str ∈ c.uses → .array a n ∈ c.uses →
    ∀ i, ¬ (off ≤ i ∧ i ≤ off + str.length ∧ a ≤ i ∧ i < a + n)

theorem getElem?_append_some {data more : Bytes} {i : Nat} {b : UInt8} (h : data[i]? = some b) :
    (data ++ more)[i]? = some b := by
  rw [List.getElem?_append_left (List.getElem?_eq_some_iff.mp h).1]
  exact h

theorem getData_eq_some {s : CUPState} {off : Nat} (h : off < s.data.length) :
    getData s off = some off := by
  rw [getData, if_neg (by omega)]

/-- The characters of an occurrence, one by one. -/
theorem OccursAt.getElem? {data str : Bytes} {k i : Nat} (h : OccursAt data str k)
    (hi : i < str.length) : data[k + i]? = str[i]? := by
  have ht := congrArg (·[i]?) h.2
  simp only [List.getElem?_take_of_lt hi, List.getElem?_drop] at ht
  exact ht

theorem internString_data_append (data str : Bytes) :
    ∃ more, (internString data str).2 = data ++ more := by
  unfold internString
  split
  · exact ⟨[], by simp⟩
  · exact ⟨str ++ [0], by simp⟩

/-- A literal that is not found is appended. -/
theorem internString_of_none {data str : Bytes} (h : getdata data str = none) :
    internString data str = (data.length, data ++ str ++ [0]) := by
  rw [internString, h]

theorem internString_of_some {data str : Bytes} {k : Nat} (h : getdata data str = some k) :
    internString data str = (k, data) := by
  rw [internString, h]

/-- Every step appends to the pool. -/
theorem poolStep_grows {c c' : PoolState} {op : PoolOp} (h : poolStep c op = some c') :
    ∃ more, c'.state.data = c.state.data ++ more := by
  cases op with
  | token space =>
    simp only [poolStep] at h
    split at h
    · next s hs =>
      obtain rfl := Option.some.inj h
      cases hl : nextLiteral space c.state with
      | none => exact ⟨[], by simp [getToken_data_none hl hs]⟩
      | some str =>
        dsimp only
        rw [(getToken_data_some hl hs).1]
        exact internString_data_append _ _
    · exact absurd h (by simp)
  | array len =>
    obtain rfl := Option.some.inj h
    exact ⟨_, rfl⟩
  | source text =>
    obtain rfl := Option.some.inj h
    exact ⟨[], by simp⟩

/-- No byte of the pool ever changes. -/
theorem poolRun_grows {c c' : PoolState} {ops : List PoolOp} (h : poolRun c ops = some c') :
    ∃ more, c'.state.data = c.state.data ++ more := by
  induction ops generalizing c with
  | nil => exact ⟨[], by simp [Option.some.inj h]⟩
  | cons op ops ih =>
    obtain ⟨c₁, h₁, h₂⟩ := Option.bind_eq_some_iff.mp h
    obtain ⟨m₁, e₁⟩ := poolStep_grows h₁
    obtain ⟨m₂, e₂⟩ := ih h₂
    exact ⟨m₁ ++ m₂, by rw [e₂, e₁, List.append_assoc]⟩

/-- A use recorded by a step that leaves the arrays alone and ends the pool with a NUL. -/
theorem PoolInv.append {c : PoolState} (hc : PoolInv c) {s : CUPState} {uses : List Use}
    (more : Bytes) (hd : s.data = c.state.data ++ more)
    (hm : more = [] ∨ more[more.length - 1]? = some 0)
    (hu : ∀ a n, .array a n ∈ uses → .array a n ∈ c.uses) : PoolInv ⟨s, uses⟩ where
  ends := by
    dsimp only
    rw [hd]
    rcases hm with rfl | hm
    · simpa using hc.ends
    · have hlt := (List.getElem?_eq_some_iff.mp hm).1
      refine Or.inr ?_
      rw [List.length_append, List.getElem?_append_right (by omega),
        show c.state.data.length + more.length - 1 - c.state.data.length = more.length - 1 by omega]
      exact hm
  zero h h₁ h₂ := by
    dsimp only
    rw [hd]
    exact getElem?_append_some (hc.zero (hu _ _ h) h₁ h₂)
  start h := by
    dsimp only
    rw [hd]
    exact (hc.start (hu _ _ h)).imp id getElem?_append_some

theorem poolStep_inv {c c' : PoolState} {op : PoolOp} (hc : PoolInv c)
    (h : poolStep c op = some c') : PoolInv c' := by
  cases op with
  | token space =>
    simp only [poolStep] at h
    split at h
    · next s hs =>
      obtain rfl := Option.some.inj h
      cases hl : nextLiteral space c.state with
      | none =>
        exact hc.append [] (by simp [getToken_data_none hl hs]) (Or.inl rfl)
          fun _ _ hu => hu
      | some str =>
        have hd := (getToken_data_some hl hs).1
        have hu : ∀ a n, Use.array a n ∈ c.uses ++ [.literal s.nodes.payload.val str] →
            Use.array a n ∈ c.uses := fun a n hu => by simpa using hu
        cases hg : getdata c.state.data str with
        | some k =>
          rw [internString_of_some hg] at hd
          exact hc.append [] (by simp [hd]) (Or.inl rfl) hu
        | none =>
          rw [internString_of_none hg] at hd
          refine hc.append (str ++ [0]) (by simp [hd]) (Or.inr ?_) hu
          simp
    · exact absurd h (by simp)
  | array len =>
    obtain rfl := Option.some.inj h
    refine ⟨?_, ?_, ?_⟩
    · -- the storage, if any, ends with a zero byte
      rcases Nat.eq_zero_or_pos (len * 8) with h0 | h0
      · simpa [reserveArray, h0] using hc.ends
      · refine Or.inr ?_
        simp only [reserveArray, List.length_append, List.length_replicate]
        rw [List.getElem?_append_right (by omega), List.getElem?_replicate_of_lt (by omega)]
    · intro a n i hu h₁ h₂
      simp only [reserveArray]
      rcases List.mem_append.mp hu with hu | hu
      · exact getElem?_append_some (hc.zero hu h₁ h₂)
      · obtain ⟨rfl, rfl⟩ : a = c.state.data.length ∧ n = len * 8 := by simpa using hu
        rw [List.getElem?_append_right h₁, List.getElem?_replicate_of_lt (by omega)]
    · intro a n hu
      simp only [reserveArray]
      rcases List.mem_append.mp hu with hu | hu
      · exact (hc.start hu).imp id getElem?_append_some
      · obtain ⟨rfl, rfl⟩ : a = c.state.data.length ∧ n = len * 8 := by simpa using hu
        exact hc.ends.imp (by simp_all) getElem?_append_some
  | source text =>
    obtain rfl := Option.some.inj h
    exact hc.append [] (by simp) (Or.inl rfl) fun _ _ hu => hu

/-! ## When a step is faithful -/

/-- `EndsEntry` for the literal the step reads, if it reads one. -/
def CleanStep (c : PoolState) : PoolOp → Prop
  | .token space => ∀ str, nextLiteral space c.state = some str → EndsEntry c.state.data str
  | _ => True

theorem LastAt.eq {data str : Bytes} {j k : Nat} (hj : LastAt data str j) (hk : LastAt data str k) :
    j = k :=
  Nat.le_antisymm (hk.2 _ hj.1) (hj.2 _ hk.1)

/-- An empty literal occurs last at the end of the pool. -/
theorem LastAt.nil {data : Bytes} {k : Nat} (h : LastAt data [] k) : k = data.length := by
  have h₁ : k ≤ data.length := by simpa using h.1.1
  have h₂ := h.2 data.length ⟨by simp, by simp⟩
  omega

/-- A shared literal that ends at a NUL is read back as it was lexed. -/
theorem cstring_of_occursAt {data str : Bytes} {k : Nat} (h : OccursAt data str k) (h0 : 0 ∉ str)
    (ht : data[k + str.length]? = some 0) : cstring data k = some str := by
  refine cstring_eq_some_iff.mpr ⟨h0, (data.drop k).drop (str.length + 1), ?_⟩
  have hd : (data.drop k)[str.length]? = some 0 := by rw [List.getElem?_drop, ht]
  obtain ⟨hlt, he⟩ := List.getElem?_eq_some_iff.mp hd
  calc data.drop k
      = (data.drop k).take str.length ++ (data.drop k).drop str.length :=
        (List.take_append_drop _ _).symm
    _ = str ++ (data.drop k).drop str.length := by rw [h.2]
    _ = str ++ 0 :: (data.drop k).drop (str.length + 1) := by
        rw [List.drop_eq_getElem_cons hlt, he]

/-- The characters of a literal are no zero bytes, so it cannot reach into an array. -/
theorem OccursAt.disjoint {c : PoolState} {str : Bytes} {k a n i : Nat} (hc : PoolInv c)
    (h : OccursAt c.state.data str k) (hne : str ≠ []) (h0 : 0 ∉ str) (ha : .array a n ∈ c.uses) :
    ¬ (k ≤ i ∧ i ≤ k + str.length ∧ a ≤ i ∧ i < a + n) := by
  rintro ⟨h₁, h₂, h₃, h₄⟩
  have hchar : ∀ j, k ≤ j → j < k + str.length → c.state.data[j]? ≠ some 0 := by
    intro j hj hj' hz
    rw [show j = k + (j - k) by omega, h.getElem? (by omega)] at hz
    exact h0 (List.mem_of_getElem? hz)
  have hpos := List.length_pos_iff.mpr hne
  rcases Nat.lt_or_eq_of_le h₂ with hlt | heq
  · exact hchar i h₁ hlt (hc.zero ha h₃ h₄)
  · -- only the terminator is in the array: the last character is in it or right before it
    rcases Nat.lt_or_eq_of_le h₃ with h₃ | h₃
    · exact hchar (i - 1) (by omega) (by omega) (hc.zero ha (by omega) (by omega))
    · rcases hc.start ha with hz | hz
      · omega
      · exact hchar (a - 1) (by omega) (by omega) hz

/-- Interning a clean literal keeps the earlier uses and adds a faithful one. -/
theorem Faithful.literal {c : PoolState} (hc : PoolInv c) (hf : Faithful c) {s : CUPState}
    {str : Bytes} (h0 : 0 ∉ str) (hclean : EndsEntry c.state.data str)
    (hd : s.data = (internString c.state.data str).2) {off : Nat}
    (ho : off = (internString c.state.data str).1) :
    Faithful ⟨s, c.uses ++ [.literal off str]⟩ := by
  obtain ⟨more, hm⟩ := internString_data_append c.state.data str
  have hnew : cstring s.data off = some str ∧
      ∀ a n, .array a n ∈ c.uses → ∀ i, ¬ (off ≤ i ∧ i ≤ off + str.length ∧ a ≤ i ∧ i < a + n) := by
    cases hg : getdata c.state.data str with
    | some k =>
      rw [internString_of_some hg] at hd ho
      obtain rfl : off = k := ho
      obtain ⟨hne, hk⟩ := getdata_eq_some_iff.mp hg
      have ht := (hclean.resolve_left hne) _ hk
      refine ⟨by rw [hd]; exact cstring_of_occursAt hk.1 h0 ht, fun a n ha i => ?_⟩
      have hstr : str ≠ [] := by
        rintro rfl
        rw [hk.nil] at ht
        simp at ht
      exact hk.1.disjoint hc hstr h0 ha
    | none =>
      rw [internString_of_none hg] at hd ho
      obtain rfl : off = c.state.data.length := ho
      refine ⟨?_, fun a n ha i hi => ?_⟩
      · rw [hd]
        exact cstring_eq_some_iff.mpr ⟨h0, [], by simp⟩
      · have hlt := (List.getElem?_eq_some_iff.mp (hc.zero ha hi.2.2.1 hi.2.2.2)).1
        omega
  have hreads : ∀ {off' str'}, .literal off' str' ∈ c.uses ++ [Use.literal off str] →
      cstring s.data off' = some str' := by
    intro off' str' hu
    rcases List.mem_append.mp hu with hu | hu
    · rw [hd, hm]
      exact cstring_append (hf.reads hu)
    · obtain ⟨rfl, rfl⟩ : off' = off ∧ str' = str := by simpa using hu
      exact hnew.1
  refine ⟨fun hu => getData_eq_some ?_, hreads, fun {off' str' a n} hu ha => ?_⟩
  · have := cstring_length_lt (hreads hu)
    dsimp only
    omega
  · have harr : .array a n ∈ c.uses := by simpa using ha
    rcases List.mem_append.mp hu with hu | hu
    · exact hf.disjoint hu harr
    · obtain ⟨rfl, rfl⟩ : off' = off ∧ str' = str := by simpa using hu
      exact hnew.2 _ _ harr

theorem Faithful.array {c : PoolState} (hf : Faithful c) (len : Nat) {s : CUPState}
    (hd : s.data = reserveArray c.state.data len) :
    Faithful ⟨s, c.uses ++ [.array c.state.data.length (len * 8)]⟩ := by
  have hold : ∀ {off str}, .literal off str ∈ c.uses ++ [Use.array c.state.data.length (len * 8)] →
      .literal off str ∈ c.uses := fun hu => by simpa using hu
  have hreads : ∀ {off str}, .literal off str ∈ c.uses → cstring s.data off = some str := by
    intro off str hu
    rw [hd]
    exact cstring_append (hf.reads hu)
  refine ⟨fun hu => getData_eq_some ?_, fun hu => hreads (hold hu),
    fun {off str a n} hu ha i hi => ?_⟩
  · have := cstring_length_lt (hreads (hold hu))
    dsimp only
    omega
  · rcases List.mem_append.mp ha with ha | ha
    · exact hf.disjoint (hold hu) ha i hi
    · obtain ⟨rfl, rfl⟩ : a = c.state.data.length ∧ n = len * 8 := by simpa using ha
      have := cstring_length_lt (hf.reads (hold hu))
      omega

/-- A faithful state stays faithful over a step exactly when the step is clean. -/
theorem poolStep_faithful_iff {c c' : PoolState} {op : PoolOp} (hc : PoolInv c) (hf : Faithful c)
    (h : poolStep c op = some c') : Faithful c' ↔ CleanStep c op := by
  cases op with
  | token space =>
    simp only [poolStep] at h
    split at h
    · next s hs =>
      obtain rfl := Option.some.inj h
      cases hl : nextLiteral space c.state with
      | none =>
        have hd := getToken_data_none hl hs
        refine iff_of_true ⟨fun hu => ?_, fun hu => ?_, hf.disjoint⟩
          (fun str e => absurd (hl.symm.trans e) (by simp))
        · rw [getData, hd]
          exact hf.valid hu
        · rw [hd]
          exact hf.reads hu
      | some str =>
        obtain ⟨hd, ho⟩ := getToken_data_some hl hs
        have h0 := zero_not_mem_nextLiteral hl
        constructor
        · -- a found literal that reads back ends at a NUL
          intro hf' str' e
          obtain rfl : str = str' := Option.some.inj (hl.symm.trans e)
          by_cases hne : c.state.data = []
          · exact Or.inl hne
          · refine Or.inr fun k hk => ?_
            have hr : cstring s.data s.nodes.payload.val = some str := hf'.reads (by simp)
            have hi := internString_of_some (getdata_eq_some_iff.mpr ⟨hne, hk⟩)
            rw [hd, ho, hi] at hr
            exact cstring_terminator hr
        · intro hclean
          exact hf.literal hc h0 (hclean _ hl) hd ho
    · exact absurd h (by simp)
  | array len =>
    obtain rfl := Option.some.inj h
    exact iff_of_true (hf.array len rfl) trivial
  | source text =>
    obtain rfl := Option.some.inj h
    exact iff_of_true ⟨hf.valid, hf.reads, hf.disjoint⟩ trivial

/-! ## Whole runs -/

theorem PoolInv.fresh {s : CUPState} (h : s.data = []) : PoolInv ⟨s, []⟩ :=
  ⟨Or.inl h, fun hu => by simp at hu, fun hu => by simp at hu⟩

theorem Faithful.fresh (s : CUPState) : Faithful ⟨s, []⟩ :=
  ⟨fun hu => by simp at hu, fun hu => by simp at hu, fun hu => by simp at hu⟩

theorem poolRun_inv {c c' : PoolState} {ops : List PoolOp} (hc : PoolInv c)
    (h : poolRun c ops = some c') : PoolInv c' := by
  induction ops generalizing c with
  | nil => exact Option.some.inj h ▸ hc
  | cons op ops ih =>
    obtain ⟨c₁, h₁, h₂⟩ := Option.bind_eq_some_iff.mp h
    exact ih (poolStep_inv hc h₁) h₂

theorem poolRun_snoc {c c' : PoolState} {ops : List PoolOp} {op : PoolOp} :
    poolRun c (ops ++ [op]) = some c' ↔
      ∃ c₁, poolRun c ops = some c₁ ∧ poolStep c₁ op = some c' := by
  rw [poolRun_append]
  simp [poolRun, Option.bind_eq_some_iff]

/-- The literal pool along a run from `s`: at every time each literal is valid, reads back and
    keeps off the arrays, and what is in the pool stays as it is. -/
structure PoolFaithful (s : CUPState) (ops : List PoolOp) : Prop where
  faithful : ∀ {done c}, done <+: ops → poolRun ⟨s, []⟩ done = some c → Faithful c
  keeps : ∀ {done next c c'}, done ++ next <+: ops → poolRun ⟨s, []⟩ done = some c →
    poolRun ⟨s, []⟩ (done ++ next) = some c' → c.state.data <+: c'.state.data

/-- Every literal of the run, when it is lexed, finds the pool empty, or does not occur in it,
    or occurs last right before a NUL. -/
def CleanRun (s : CUPState) (ops : List PoolOp) : Prop :=
  ∀ done op c c', done ++ [op] <+: ops → poolRun ⟨s, []⟩ done = some c →
    poolStep c op = some c' → CleanStep c op

theorem poolRun_faithful {s : CUPState} (h : s.data = []) {ops : List PoolOp}
    (hclean : CleanRun s ops) {done : List PoolOp} {c : PoolState} (hd : done <+: ops)
    (hr : poolRun ⟨s, []⟩ done = some c) : Faithful c := by
  induction done using List.reverseRecOn generalizing c with
  | nil => exact Option.some.inj hr ▸ Faithful.fresh s
  | append_singleton done op ih =>
    obtain ⟨c₁, h₁, h₂⟩ := poolRun_snoc.mp hr
    have hf := ih ((List.prefix_append _ _).trans hd) h₁
    exact (poolStep_faithful_iff (poolRun_inv (.fresh h) h₁) hf h₂).mpr (hclean _ _ _ _ hd h₁ h₂)

/-- The pool is faithful along a run exactly when every literal of the run is clean. -/
theorem poolFaithful_iff_cleanRun {s : CUPState} (h : s.data = []) (ops : List PoolOp) :
    PoolFaithful s ops ↔ CleanRun s ops := by
  constructor
  · intro hf done op c c' hd hr hs
    have hc := poolRun_inv (.fresh h) hr
    have hdone := hf.faithful ((List.prefix_append _ _).trans hd) hr
    exact (poolStep_faithful_iff hc hdone hs).mp (hf.faithful hd (poolRun_snoc.mpr ⟨c, hr, hs⟩))
  · intro hclean
    refine ⟨poolRun_faithful h hclean, fun {done next c c'} _ hr hr' => ?_⟩
    rw [poolRun_append, hr] at hr'
    obtain ⟨more, hm⟩ := poolRun_grows hr'
    exact hm ▸ List.prefix_append _ _

/-- Two literals of one text, neither of which occurs in the other. -/
theorem poolFaithful_iff_cleanRun_two :
    PoolFaithful { input := ascii ['"', 'a', '"', '"', 'b', '"'] } [.token true, .token true] ↔
      CleanRun { input := ascii ['"', 'a', '"', '"', 'b', '"'] } [.token true, .token true] :=
  poolFaithful_iff_cleanRun rfl _

/-- The text `"abc" "ab"`: the second literal gets offset 0, where the pool holds `abc`. -/
theorem not_poolFaithful_abc_ab :
    ¬ ∀ s : CUPState, s.data = [] → ∀ ops, PoolFaithful s ops := by
  intro hall
  let text := ascii ['"', 'a', 'b', 'c', '"', ' ', '"', 'a', 'b', '"']
  have hf := hall { input := text } rfl [.token true, .token true]
  obtain ⟨c, hr, hu, hs⟩ : ∃ c, poolRun ⟨{ input := text }, []⟩ [.token true, .token true] = some c ∧
      .literal 0 (ascii ['a', 'b']) ∈ c.uses ∧
      cstring c.state.data 0 = some (ascii ['a', 'b', 'c']) :=
    ⟨_, rfl, by decide, by decide⟩
  have hbad := (hf.faithful (List.prefix_refl _) hr).reads hu
  rw [hs] at hbad
  exact absurd hbad (by decide)

end Cup
