/-
  Token boundaries. `getToken` updates the location by walking from the last token start to
  `input_stream` with `nextChar`, which takes a line break of two characters in one step; the
  walk arrives because no token ends inside such a line break. Every token but the end of the
  text takes at least one character.
-/
import Mathlib.Data.List.TakeWhile
import Cup.Lexer

namespace Cup

open Lib (Stop Run)

/-! ## The walk -/

/-- `rest` does not start inside a line break that begins in `pre`. -/
def Whole (pre rest : Bytes) : Prop := pre.getLast? = some 13 → rest.head? ≠ some 10

theorem whole_nil (rest : Bytes) : Whole [] rest := by
  intro h
  cases h

theorem whole_of_not_mem {pre : Bytes} (h : 13 ∉ pre) (rest : Bytes) : Whole pre rest := by
  intro hlast
  exact absurd (List.mem_of_getLast? hlast) h

theorem Whole.tail {c : UInt8} {pre rest : Bytes} (h : Whole (c :: pre) rest) : Whole pre rest := by
  intro hlast
  refine h ?_
  cases pre with
  | nil => cases hlast
  | cons d pre => rw [List.getLast?_cons_cons, hlast]

/-- The three kinds of line breaks, and the characters that are none. -/
theorem newlineChar_cases (l : Bytes) :
    (∃ rest, l = 13 :: 10 :: rest ∧ newlineChar l = 2) ∨
    (newlineChar l = 1 ∧ ∃ c rest, l = c :: rest ∧ (c = 13 ∧ rest.head? ≠ some 10 ∨ c = 10)) ∨
    (newlineChar l = 0 ∧ ∀ rest, l ≠ 13 :: rest ∧ l ≠ 10 :: rest) := by
  unfold newlineChar
  split
  · rename_i rest
    exact .inl ⟨rest, rfl, rfl⟩
  · rename_i rest hne
    refine .inr (.inl ⟨rfl, 13, rest, rfl, .inl ⟨rfl, fun h => ?_⟩⟩)
    cases rest with
    | nil => cases h
    | cons d rest => exact hne rest (by rw [Option.some.inj h])
  · rename_i rest
    exact .inr (.inl ⟨rfl, 10, rest, rfl, .inr rfl⟩)
  · rename_i h₁ h₂ h₃
    exact .inr (.inr ⟨rfl, fun rest => ⟨h₂ rest, h₃ rest⟩⟩)

/-- A step of the walk stays in front of a boundary. -/
theorem nextChar_walk {c : UInt8} {pre rest : Bytes} (h : Whole (c :: pre) rest) (loc : Loc) :
    ∃ pre', (nextChar (c :: pre ++ rest) loc).1 = pre' ++ rest ∧ pre'.length ≤ pre.length ∧
      Whole pre' rest := by
  unfold nextChar
  rcases newlineChar_cases (c :: pre ++ rest) with ⟨rest', he, hn⟩ | ⟨hn, -⟩ | ⟨hn, -⟩
  · rw [List.cons_append] at he
    obtain ⟨rfl, htail⟩ := List.cons.inj he
    cases pre with
    | nil =>
      have hrest : rest = 10 :: rest' := htail
      exact absurd (by rw [hrest]; rfl) (h rfl)
    | cons d pre =>
      rw [hn]
      exact ⟨pre, rfl, Nat.le_succ _, h.tail.tail⟩
  · rw [hn]
    exact ⟨pre, rfl, Nat.le_refl _, h.tail⟩
  · rw [hn]
    exact ⟨pre, rfl, Nat.le_refl _, h.tail⟩

/-- The walk arrives at a boundary. -/
theorem catchUp_ok {pre rest : Bytes} (h : Whole pre rest) {n : Nat} (hn : pre.length < n)
    (loc : Loc) : ∃ loc', catchUp n (pre ++ rest) rest loc = .ok loc' := by
  induction n generalizing pre loc with
  | zero => omega
  | succ n ih =>
    unfold catchUp
    cases pre with
    | nil => exact ⟨loc, if_pos rfl⟩
    | cons c pre =>
      have hlen : (c :: pre ++ rest).length = pre.length + rest.length + 1 := by
        simp only [List.length_append, List.length_cons]
        omega
      obtain ⟨pre', hpre', hle, hw⟩ := nextChar_walk h loc
      rw [if_neg (by omega), if_neg (by omega)]
      cases hnext : nextChar (c :: pre ++ rest) loc with
      | mk stream loc' =>
        rw [hnext] at hpre'
        dsimp only at hpre' ⊢
        rw [hpre']
        rw [List.length_cons] at hn
        exact ih hw (by omega) loc'

/-! ## Tokens -/

/-- A part of a token without carriage returns. -/
def Plainly (p rest : Bytes) : Prop := ∃ pre, p = pre ++ rest ∧ 13 ∉ pre

theorem plainly_refl (p : Bytes) : Plainly p p := ⟨[], rfl, by simp⟩

theorem Plainly.cons {c : UInt8} {p rest : Bytes} (h : Plainly p rest) (hc : c ≠ 13) :
    Plainly (c :: p) rest := by
  obtain ⟨pre, rfl, hpre⟩ := h
  refine ⟨c :: pre, rfl, fun hmem => ?_⟩
  rcases List.mem_cons.mp hmem with rfl | hmem
  · exact hc rfl
  · exact hpre hmem

theorem digitLoop_plainly {bits : Nat} {digit : UInt8 → Option Nat} (hdigit : digit 13 = none)
    (value : Nat) (p : Bytes) : Plainly p (digitLoop bits digit value p).2 := by
  induction p generalizing value with
  | nil => exact plainly_refl _
  | cons c p ih =>
    unfold digitLoop
    split
    · rename_i hc
      exact (ih value).cons (by rw [hc]; decide)
    · split
      · rename_i d hd
        exact (ih _).cons (by rintro rfl; rw [hdigit] at hd; cases hd)
      · exact plainly_refl _

theorem numberLoop_plainly (value : Nat) (p : Bytes) : Plainly p (numberLoop value p).2 := by
  induction p generalizing value with
  | nil => exact plainly_refl _
  | cons c p ih =>
    unfold numberLoop
    split
    · rename_i hc
      exact (ih value).cons (by rw [hc]; decide)
    · split
      · rename_i hd
        exact (ih _).cons (by rintro rfl; exact absurd hd (by decide))
      · exact plainly_refl _

theorem zeroChar_plainly {p rest : Bytes} {value : Nat} (h : zeroChar p = some (value, rest)) :
    Plainly p rest := by
  cases p with
  | nil =>
    have hnone : zeroChar [] = none := by decide
    rw [hnone] at h
    cases h
  | cons c p =>
    have hc : c ≠ 13 := by
      rintro rfl
      have hf : peekChar (13 :: p) ||| 32 = 45 := (by decide : (13 : UInt8) ||| 32 = 45)
      have hnone : zeroChar (13 :: p) = none := by
        unfold zeroChar
        rw [hf]
        rfl
      rw [hnone] at h
      cases h
    unfold zeroChar at h
    dsimp only at h
    split at h
    · obtain rfl : (binaryChar p).2 = rest := congrArg Prod.snd (Option.some.inj h)
      exact (digitLoop_plainly (by decide) 0 p).cons hc
    · split at h
      · obtain rfl : (octalChar p).2 = rest := congrArg Prod.snd (Option.some.inj h)
        exact (digitLoop_plainly (by decide) 0 p).cons hc
      · split at h
        · obtain rfl : (hexChar p).2 = rest := congrArg Prod.snd (Option.some.inj h)
          exact (digitLoop_plainly (by decide) 0 p).cons hc
        · cases h

/-- A literal ends with its quote or with the text. -/
theorem stringChars_split (p : Bytes) : ∃ pre, p = pre ++ (stringChars p).2 ∧
    ((∃ pre', pre = pre' ++ [34]) ∨ (stringChars p).2.head? ≠ some 10) := by
  induction p with
  | nil => exact ⟨[], rfl, .inr (by decide)⟩
  | cons c p ih =>
    unfold stringChars
    split
    · rename_i hc
      refine ⟨[], rfl, .inr ?_⟩
      rw [List.head?_cons, hc]
      decide
    · split
      · rename_i hc
        exact ⟨[34], by rw [hc]; rfl, .inl ⟨[], rfl⟩⟩
      · obtain ⟨pre, hp, hor⟩ := ih
        refine ⟨c :: pre, by rw [List.cons_append, ← hp], ?_⟩
        rcases hor with ⟨pre', rfl⟩ | hhead
        · exact .inl ⟨c :: pre', rfl⟩
        · exact .inr hhead

theorem strindex_lt {str : Bytes} {c : UInt8} {i : Nat} (h : strindex str c = some i) :
    c ∈ str ∧ i < str.length := by
  obtain ⟨hi, hc, -⟩ := List.findIdx?_eq_some_iff_getElem.mp h
  have hc : str[i] = c := by simpa using hc
  exact ⟨by rw [← hc]; exact List.getElem_mem hi, hi⟩

/-! ## Scanning -/

/-- The tables of the parser; the lexer does not touch them. -/
structure Tables where
  scopes : List Nat
  scope : Nat
  vars : CVec CVariable
  varsMap : List Nat
  types : List CUPType
  tempmem : List Slot
  gaps : List Gap

def CUPState.tables (s : CUPState) : Tables :=
  ⟨s.scopes, s.scope, s.vars, s.varsMap, s.types, s.tempmem, s.gaps⟩

/-- The text `p` is scanned up to a boundary; a token that takes no character ends the text. An
    identifier has a name, and the tables are left alone. -/
structure Scanned (s s' : CUPState) (p : Bytes) : Prop where
  consumed : ∃ pre, p = pre ++ s'.input ∧ Whole pre s'.input ∧ (pre = [] → s'.token = .tEof)
  priv : s'.priv = s.priv
  name : s'.token = .tIdentifier → ∃ str, s'.nodes.payload = .svalue str
  tables : s'.tables = s.tables

theorem idToken_frame (s : CUPState) (str : Bytes) : (idToken s str).1.input = s.input ∧
    (idToken s str).1.priv = s.priv ∧ (idToken s str).1.token ≠ .tEof ∧
    ((idToken s str).1.token = .tIdentifier →
      ∃ dup, (idToken s str).1.nodes.payload = .svalue dup) ∧
    (idToken s str).1.tables = s.tables := by
  unfold idToken
  cases hk : keyword str with
  | some t =>
    have ht : t ≠ .tEof ∧ t ≠ .tIdentifier := by
      unfold keyword at hk
      repeat' split at hk
      all_goals cases hk
      all_goals decide
    exact ⟨rfl, rfl, ht.1, fun h => absurd h ht.2, rfl⟩
  | none =>
    refine ⟨rfl, rfl, ?_, fun _ => ⟨_, rfl⟩, rfl⟩
    change CTType.tIdentifier ≠ .tEof
    decide

variable {s : CUPState} {p rest : Bytes}

/-- A state with a token `n` that is no name and the text behind it. -/
theorem Scanned.of_nodes {q : Bytes} (n : Node2) (data : Bytes) (hp : p = q ++ rest)
    (hw : Whole q rest) (hne : q = [] → n.token = .tEof) (hid : n.token ≠ .tIdentifier) :
    Scanned s { s with input := rest, data := data, nodes := n } p where
  consumed := ⟨q, hp, hw, hne⟩
  priv := rfl
  name h := absurd h hid
  tables := rfl

theorem Scanned.of_plainly {c : UInt8} (n : Node2) (hc : c ≠ 13) (hw : Plainly p rest)
    (hid : n.token ≠ .tIdentifier) :
    Scanned s { s with input := rest, nodes := n } (c :: p) := by
  obtain ⟨pre, rfl, hpre⟩ := hw
  refine .of_nodes n s.data (q := c :: pre) rfl (whole_of_not_mem ?_ _) (fun h => by cases h) hid
  intro hmem
  rcases List.mem_cons.mp hmem with rfl | hmem
  · exact hc rfl
  · exact hpre hmem

theorem Scanned.of_string (str : Bytes) (n : Node2) (data : Bytes) (hid : n.token ≠ .tIdentifier) :
    Scanned s { s with input := (stringChars str).2, data := data, nodes := n } (34 :: str) := by
  obtain ⟨pre, hp, hor⟩ := stringChars_split str
  refine .of_nodes n data (q := 34 :: pre) (by rw [List.cons_append, ← hp]) ?_ (fun h => by cases h) hid
  intro hlast
  rcases hor with ⟨pre', rfl⟩ | hhead
  · rw [← List.cons_append, List.getLast?_append] at hlast
    cases hlast
  · exact hhead

theorem Scanned.of_newline (n : Node2) (hn : newlineChar p ≠ 0) (hid : n.token ≠ .tIdentifier) :
    Scanned s { s with input := p.drop (newlineChar p), nodes := n } p := by
  rcases newlineChar_cases p with ⟨rest, rfl, h2⟩ | ⟨h1, c, rest, rfl, hc⟩ | ⟨h0, -⟩
  · rw [h2]
    refine .of_nodes n s.data (q := [13, 10]) rfl ?_ (fun h => by cases h) hid
    intro hlast
    cases hlast
  · rw [h1]
    refine .of_nodes n s.data (q := [c]) rfl ?_ (fun h => by cases h) hid
    intro hlast
    rcases hc with ⟨-, hrest⟩ | rfl
    · exact hrest
    · cases hlast
  · exact absurd h0 hn

theorem dropWhile_plainly (p : Bytes) : Plainly p (p.dropWhile isID) := by
  refine ⟨p.takeWhile isID, (List.takeWhile_append_dropWhile).symm, fun h => ?_⟩
  exact absurd (List.mem_takeWhile_imp h) (by decide)

theorem Scanned.of_name {c : UInt8} (hc : c ≠ 13) (str : Bytes) :
    Scanned s (idToken { s with input := p.dropWhile isID } str).1 (c :: p) := by
  obtain ⟨hinput, hpriv, heof, hname, htables⟩ := idToken_frame { s with input := p.dropWhile isID } str
  obtain ⟨pre, hp, hpre⟩ := dropWhile_plainly p
  refine ⟨⟨c :: pre, ?_, ?_, fun h => by cases h⟩, hpriv, hname, htables⟩
  · rw [hinput, List.cons_append, ← hp]
  · refine whole_of_not_mem (fun hmem => ?_) _
    rcases List.mem_cons.mp hmem with rfl | hmem
    · exact hc rfl
    · exact hpre hmem

theorem ne_newline {c : UInt8} {rest : Bytes} (h : ¬ newlineChar (c :: rest) ≠ 0) : c ≠ 13 := by
  rintro rfl
  rcases newlineChar_cases (13 :: rest) with ⟨-, -, h2⟩ | ⟨h1, -⟩ | ⟨-, hne⟩
  · exact h (by omega)
  · exact h (by omega)
  · exact (hne rest).1 rfl

theorem getD_ne {l : List CTType} (hall : ∀ t ∈ l, t ≠ .tIdentifier) (i : Nat) :
    l.getD i .tEof ≠ .tIdentifier := by
  rw [List.getD_eq_getElem?_getD]
  cases hi : l[i]? with
  | none => decide
  | some t => exact hall t (List.mem_of_getElem? hi)

theorem equals_plainly {p : Bytes} (h : ¬ peekChar p ≠ '='.toUInt8) : Plainly p (p.drop 1) := by
  cases p with
  | nil => exact plainly_refl _
  | cons c p =>
    refine (plainly_refl p).cons ?_
    rintro rfl
    exact h (by decide : (13 : UInt8) ≠ 61)

/-- A token ends at a boundary. -/
theorem scanToken_scanned (s : CUPState) (p : Bytes) : Scanned s (scanToken s p) p := by
  unfold scanToken
  cases p with
  | nil => exact .of_nodes _ _ (q := []) rfl (whole_nil _) (fun _ => rfl) (by simp)
  | cons c rest =>
    dsimp only
    split
    · exact .of_nodes _ _ (q := []) rfl (whole_nil _) (fun _ => rfl) (by simp)
    · split
      · rename_i hc
        rw [hc]
        exact .of_string _ _ _ (by simp [Node2.token])
      · split
        · rename_i value rest' hz
          split at hz
          · rename_i hc
            exact .of_plainly _ (by rw [hc]; decide) (zeroChar_plainly hz)
              (by simp [Node2.token, Node2.setToken])
          · cases hz
        · split
          · rename_i hd
            have hc : c ≠ 13 := by
              rintro rfl
              exact absurd hd (by decide)
            have hu : c ≠ '_'.toUInt8 := by
              rintro rfl
              exact absurd hd (by decide)
            have hfirst : numberChar (c :: rest) =
                numberLoop ((0 * 10 + (c.toNat - 48)) % 2 ^ 64) rest := by
              unfold numberChar
              rw [numberLoop, if_neg hu, if_pos hd]
            rw [hfirst]
            exact .of_plainly _ hc (numberLoop_plainly _ _) (by simp [Node2.token, Node2.setToken])
          · split
            · rename_i hc
              have hc : c ≠ 13 := by
                rw [hc]
                decide
              split
              · exact .of_plainly _ hc (((plainly_refl _).cons (by decide)).cons (by decide)) (by simp)
              · exact .of_plainly _ hc (plainly_refl _) (by simp)
            · split
              · rename_i hn
                exact .of_newline _ hn (by simp)
              · rename_i hn
                split
                · split
                  · exact .of_plainly _ (ne_newline hn) (plainly_refl _) (getD_ne (by decide) _)
                  · rename_i he
                    exact .of_plainly _ (ne_newline hn) (equals_plainly he) (getD_ne (by decide) _)
                · split
                  · exact .of_plainly _ (ne_newline hn) (plainly_refl _) (getD_ne (by decide) _)
                  · exact .of_name (ne_newline hn) _

/-! ## Fetching a token -/

/-- The walk from the last token arrives at `input_stream`. -/
def CUPState.InWalk (s : CUPState) : Prop :=
  ∃ pre, s.priv.getD s.input = pre ++ s.input ∧ Whole pre s.input

/-- What is left of the text: its characters, and the current token unless it is the end. -/
def CUPState.weight (s : CUPState) : Nat := s.input.length + if s.token = .tEof then 0 else 1

/-- A token is fetched; `weight` says that it was taken from the text. -/
structure Fetched (s s' : CUPState) : Prop where
  walk : s'.InWalk
  weight : s'.weight ≤ s.input.length
  name : s'.token = .tIdentifier → ∃ str, s'.nodes.payload = .svalue str
  tables : s'.tables = s.tables

/-- `getToken` always returns. -/
theorem getToken_ok (space : Bool) {s : CUPState} (h : s.InWalk) :
    ∃ s', getToken space s = .ok () s' ∧ Fetched s s' := by
  obtain ⟨pre, hpriv, hw⟩ := h
  obtain ⟨loc', hcatch⟩ := catchUp_ok hw (n := (pre ++ s.input).length + 1)
    (by rw [List.length_append]; omega) s.nodes.loc
  unfold getToken
  dsimp only
  rw [hpriv, hcatch]
  refine ⟨_, rfl, ?_⟩
  generalize hloc : ({ loc' with col := (loc'.col + (s.input.length -
    (s.input.dropWhile (isBlank space)).length)) % 2 ^ 16 } : Loc) = loc
  have hscan := scanToken_scanned
    { s with
      input := s.input.dropWhile (isBlank space)
      priv := some (s.input.dropWhile (isBlank space))
      nodes := ⟨loc, .value 0⟩ } (s.input.dropWhile (isBlank space))
  have hle : (s.input.dropWhile (isBlank space)).length ≤ s.input.length :=
    (List.dropWhile_sublist _).length_le
  generalize scanToken _ _ = s' at hscan ⊢
  obtain ⟨pre', hp, hw', hne⟩ := hscan.consumed
  refine ⟨⟨pre', ?_, hw'⟩, ?_, hscan.name, hscan.tables⟩
  · rw [hscan.priv]
    exact hp
  · have hlen := congrArg List.length hp
    rw [List.length_append] at hlen
    unfold CUPState.weight
    split
    · omega
    · rename_i htok
      have hpos : 0 < pre'.length := List.length_pos_iff.mpr fun hnil => htok (hne hnil)
      omega

end Cup
