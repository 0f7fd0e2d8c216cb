/-
  Runs of the lexer over a NUL-terminated text (`getToken` of `src/lexer.c`).

  A state knows the text up to its NUL; `behind q` is the same state in a memory where `q` stands
  behind it. A call does the same in both when `q` starts with the NUL (`getToken_behind`), so no
  character behind the NUL is looked at. `LexRun` says of each call of a sequence that it returns
  in this way, what it skips and that it moves forward.
-/
import Cup.Locations
import Cup.Literals

namespace Cup

open Lib (Stop Run)

/-! ## Behind the NUL -/

/-- The state, with `q` behind the text. -/
def CUPState.behind (q : Bytes) (s : CUPState) : CUPState :=
  { s with input := s.input ++ q, priv := s.priv.map (· ++ q) }

variable {p junk : Bytes} {s : CUPState}

theorem dropWhile_behind {f : UInt8 → Bool} (hf : f 0 = false) (p junk : Bytes) :
    (p ++ 0 :: junk).dropWhile f = p.dropWhile f ++ 0 :: junk := by
  induction p with
  | nil =>
    rw [List.nil_append, List.dropWhile_nil, List.nil_append, List.dropWhile_cons, hf]
    rfl
  | cons c p ih =>
    rw [List.cons_append, List.dropWhile_cons, List.dropWhile_cons, ih]
    split <;> rfl

theorem takeWhile_behind {f : UInt8 → Bool} (hf : f 0 = false) (p junk : Bytes) :
    (p ++ 0 :: junk).takeWhile f = p.takeWhile f := by
  induction p with
  | nil =>
    rw [List.nil_append, List.takeWhile_nil, List.takeWhile_cons, hf]
    rfl
  | cons c p ih => rw [List.cons_append, List.takeWhile_cons, List.takeWhile_cons, ih]

theorem peekChar_behind (p junk : Bytes) : peekChar (p ++ 0 :: junk) = peekChar p := by
  cases p <;> rfl

theorem digitLoop_behind {bits : Nat} {digit : UInt8 → Option Nat} (h : digit 0 = none)
    (value : Nat) (p junk : Bytes) : digitLoop bits digit value (p ++ 0 :: junk) =
      ((digitLoop bits digit value p).1, (digitLoop bits digit value p).2 ++ 0 :: junk) := by
  induction p generalizing value with
  | nil =>
    show digitLoop bits digit value (0 :: junk) = (value, 0 :: junk)
    rw [digitLoop.eq_2, if_neg (by decide), h]
  | cons c p ih =>
    rw [List.cons_append, digitLoop, digitLoop]
    split
    · exact ih value
    · split
      · exact ih _
      · rfl

theorem numberLoop_behind (value : Nat) (p junk : Bytes) : numberLoop value (p ++ 0 :: junk) =
    ((numberLoop value p).1, (numberLoop value p).2 ++ 0 :: junk) := by
  induction p generalizing value with
  | nil =>
    show numberLoop value (0 :: junk) = (value, 0 :: junk)
    rw [numberLoop.eq_2, if_neg (by decide), if_neg (by decide)]
  | cons c p ih =>
    rw [List.cons_append, numberLoop, numberLoop]
    split
    · exact ih value
    · split
      · exact ih _
      · rfl

theorem zeroChar_behind (p junk : Bytes) : zeroChar (p ++ 0 :: junk) =
    (zeroChar p).map fun r => (r.1, r.2 ++ 0 :: junk) := by
  cases p with
  | nil =>
    have hnone : ∀ q : Bytes, zeroChar (0 :: q) = none := fun q => by
      unfold zeroChar
      have hf : peekChar (0 :: q) ||| 32 = 32 := by
        show (0 : UInt8) ||| 32 = 32
        decide
      rw [hf]
      rfl
    rw [List.nil_append, hnone]
    rfl
  | cons c p =>
    have hpeek : peekChar (c :: p ++ 0 :: junk) = peekChar (c :: p) := rfl
    have hdrop : (c :: p ++ 0 :: junk).drop 1 = p ++ 0 :: junk := rfl
    unfold zeroChar
    rw [hpeek, hdrop, binaryChar, octalChar, hexChar, digitLoop_behind (by decide),
      digitLoop_behind (by decide), digitLoop_behind (by decide)]
    dsimp only
    split
    · rfl
    · split
      · rfl
      · split <;> rfl

theorem newlineChar_behind (p junk : Bytes) : newlineChar (p ++ 0 :: junk) = newlineChar p := by
  have hhead : ∀ q : Bytes, (q ++ 0 :: junk).head? = some 10 ↔ q.head? = some 10 := by
    intro q
    cases q with
    | nil => exact ⟨fun h => absurd (Option.some.inj h) (by decide), nofun⟩
    | cons c q => exact Iff.rfl
  cases p with
  | nil => rfl
  | cons c p =>
    rcases newlineChar_cases (c :: p) with ⟨r, he, hn⟩ | ⟨hn, d, r, he, hd⟩ | ⟨hn, hne⟩
    · rw [hn, he]
      rfl
    · obtain ⟨rfl, rfl⟩ := List.cons.inj he
      rcases newlineChar_cases (c :: p ++ 0 :: junk) with ⟨r', he', -⟩ | ⟨hn', -⟩ | ⟨-, hne'⟩
      · obtain ⟨rfl, hp⟩ := List.cons.inj he'
        have hp : p ++ 0 :: junk = 10 :: r' := hp
        rcases hd with ⟨-, hd⟩ | hd
        · exact absurd ((hhead p).mp (by rw [hp]; rfl)) hd
        · exact absurd hd (by decide)
      · rw [hn, hn']
      · rcases hd with ⟨rfl, -⟩ | rfl
        · exact absurd rfl (hne' _).1
        · exact absurd rfl (hne' _).2
    · rcases newlineChar_cases (c :: p ++ 0 :: junk) with ⟨r', he', -⟩ | ⟨-, d, r', he', hd⟩ | ⟨hn', -⟩
      · obtain ⟨rfl, -⟩ := List.cons.inj he'
        exact absurd rfl (hne p).1
      · obtain ⟨rfl, -⟩ := List.cons.inj he'
        rcases hd with ⟨rfl, -⟩ | rfl
        · exact absurd rfl (hne p).1
        · exact absurd rfl (hne p).2
      · rw [hn, hn']

theorem newlineChar_le (p : Bytes) : newlineChar p ≤ p.length := by
  rcases newlineChar_cases p with ⟨r, rfl, hn⟩ | ⟨hn, d, r, rfl, -⟩ | ⟨hn, -⟩
  · rw [hn, List.length_cons, List.length_cons]
    omega
  · rw [hn, List.length_cons]
    omega
  · omega

theorem stringChars_behind (p junk : Bytes) : stringChars (p ++ 0 :: junk) =
    ((stringChars p).1, (stringChars p).2 ++ 0 :: junk) := by
  induction p with
  | nil => rfl
  | cons c p ih =>
    rw [List.cons_append, stringChars, stringChars]
    split
    · rfl
    · split
      · rfl
      · rw [ih]

theorem idToken_behind (s : CUPState) (str q : Bytes) :
    (idToken (s.behind q) str).1 = ((idToken s str).1).behind q := by
  unfold idToken
  cases keyword str <;> rfl

/-- The token `...`, or a dot. -/
theorem scanToken_behind_dot (s : CUPState) (rest junk : Bytes) :
    scanToken (s.behind (0 :: junk)) (46 :: rest ++ 0 :: junk) =
      (scanToken s (46 :: rest)).behind (0 :: junk) := by
  by_cases hvarg : ∃ q, rest = 46 :: 46 :: q
  · obtain ⟨q, rfl⟩ := hvarg
    rfl
  · have hdot : ∀ q, rest ≠ 46 :: 46 :: q := fun q hq => hvarg ⟨q, hq⟩
    have hdot' : ∀ q, rest ++ 0 :: junk ≠ 46 :: 46 :: q := by
      intro q hq
      cases rest with
      | nil => exact absurd (List.cons.inj hq).1 (by decide)
      | cons c rest =>
        obtain ⟨rfl, htail⟩ := List.cons.inj hq
        cases rest with
        | nil => exact absurd (List.cons.inj htail).1 (by decide)
        | cons d rest =>
          obtain ⟨rfl, -⟩ := List.cons.inj htail
          exact hdot rest rfl
    rw [List.cons_append, scanToken_dot _ hdot', scanToken_dot _ hdot]
    rfl

theorem scanToken_behind (s : CUPState) (p junk : Bytes) :
    scanToken (s.behind (0 :: junk)) (p ++ 0 :: junk) = (scanToken s p).behind (0 :: junk) := by
  cases p with
  | nil => rfl
  | cons c rest =>
    by_cases h46 : c = 46
    · rw [h46]
      exact scanToken_behind_dot s rest junk
    · have hdot : ¬ c = '.'.toUInt8 := h46
      have hnewline := newlineChar_behind (c :: rest) junk
      have hzero : (if c = 48 then zeroChar (rest ++ 0 :: junk) else none) =
          (if c = 48 then zeroChar rest else none).map fun r => (r.1, r.2 ++ 0 :: junk) := by
        split
        · exact zeroChar_behind rest junk
        · rfl
      rw [List.cons_append] at hnewline ⊢
      unfold scanToken
      dsimp only
      rw [hnewline, hzero, stringChars_behind, peekChar_behind, takeWhile_behind (by decide),
        dropWhile_behind (by decide), numberChar, numberChar, ← List.cons_append,
        numberLoop_behind]
      split
      · rfl
      · split
        · rfl
        · cases (if c = 48 then zeroChar rest else none) with
          | some r => rfl
          | none =>
            dsimp only [Option.map]
            split
            · rfl
            · split
              · rw [List.drop_append_of_le_length (newlineChar_le (c :: rest))]
                rfl
              · split
                · split
                  · rfl
                  · rename_i he
                    have hone : 1 ≤ rest.length :=
                      List.length_pos_iff.mpr fun hnil => he (by rw [hnil]; decide)
                    rw [List.drop_append_of_le_length hone]
                    rfl
                · split
                  · rfl
                  · exact idToken_behind { s with input := rest.dropWhile isID } _ _

/-- A step of the walk from a character of the text. -/
theorem nextChar_behind (hne : p ≠ []) (loc : Loc) (junk : Bytes) :
    nextChar (p ++ 0 :: junk) loc = ((nextChar p loc).1 ++ 0 :: junk, (nextChar p loc).2) := by
  have hone : 1 ≤ p.length := List.length_pos_iff.mpr hne
  have hle := newlineChar_le p
  have hdrop : (p ++ 0 :: junk).drop (newlineChar p) = p.drop (newlineChar p) ++ 0 :: junk :=
    List.drop_append_of_le_length hle
  unfold nextChar
  rw [newlineChar_behind, List.drop_append_of_le_length hone]
  generalize newlineChar p = i at hdrop
  cases i with
  | zero => rfl
  | succ i => exact congrArg (·, _) hdrop

/-- The walk to the current position looks at the text in front of it only. -/
theorem catchUp_behind {n : Nat} {input : Bytes} {loc loc' : Loc}
    (h : catchUp n p input loc = .ok loc') {m : Nat} (hm : n ≤ m) (junk : Bytes) :
    catchUp m (p ++ 0 :: junk) (input ++ 0 :: junk) loc = .ok loc' := by
  induction n generalizing p loc m with
  | zero => cases h
  | succ n ih =>
    cases m with
    | zero => omega
    | succ m =>
      unfold catchUp at h ⊢
      rw [List.length_append, List.length_append]
      by_cases heq : p.length = input.length
      · rw [if_pos heq] at h
        rw [if_pos (by rw [heq])]
        exact h
      · rw [if_neg heq] at h
        rw [if_neg (by omega)]
        by_cases hlt : p.length < input.length
        · rw [if_pos hlt] at h
          cases h
        · rw [if_neg hlt] at h
          rw [if_neg (by omega), nextChar_behind (List.length_pos_iff.mp (by omega))]
          exact ih h (by omega)

/-- The state in which the token at `p` is scanned. -/
def CUPState.tokenAt (s : CUPState) (loc : Loc) (p : Bytes) : CUPState :=
  { s with input := p, priv := some p, nodes := ⟨loc, .value 0⟩ }

/-- Behind the walk, a call scans the text behind the blanks. -/
theorem getToken_walked (space : Bool) {loc : Loc} (h : catchUp ((s.priv.getD s.input).length + 1)
    (s.priv.getD s.input) s.input s.nodes.loc = .ok loc) {b q : Bytes} (hinput : s.input = b ++ q)
    (hq : s.input.dropWhile (isBlank space) = q) :
    getToken space s =
      .ok () (scanToken (s.tokenAt { loc with col := (loc.col + b.length) % 2 ^ 16 } q) q) := by
  have hskipped : s.input.length - q.length = b.length := by
    rw [hinput, List.length_append]
    omega
  unfold getToken
  dsimp only
  rw [h, hq, hskipped]
  rfl

/-- A call does the same whatever stands behind the NUL. -/
theorem getToken_behind {space : Bool} {s' : CUPState} (h : getToken space s = .ok () s')
    (junk : Bytes) : getToken space (s.behind (0 :: junk)) = .ok () (s'.behind (0 :: junk)) := by
  have hpriv : (s.behind (0 :: junk)).priv.getD (s.behind (0 :: junk)).input =
      s.priv.getD s.input ++ 0 :: junk := by
    unfold CUPState.behind
    cases s.priv <;> rfl
  have hinput : s.input = s.input.takeWhile (isBlank space) ++ s.input.dropWhile (isBlank space) :=
    List.takeWhile_append_dropWhile.symm
  cases hcatch : catchUp ((s.priv.getD s.input).length + 1) (s.priv.getD s.input) s.input
      s.nodes.loc with
  | error e =>
    unfold getToken at h
    dsimp only at h
    rw [hcatch] at h
    cases h
  | ok loc =>
    rw [getToken_walked space hcatch hinput rfl] at h
    obtain ⟨-, rfl⟩ := Lib.Res.ok.inj h
    have hblank : isBlank space 0 = false := by
      cases space <;> rfl
    have hcatch' := catchUp_behind hcatch
      (m := ((s.behind (0 :: junk)).priv.getD (s.behind (0 :: junk)).input).length + 1)
      (by rw [hpriv, List.length_append]; omega) junk
    rw [← hpriv] at hcatch'
    rw [getToken_walked space hcatch' (b := s.input.takeWhile (isBlank space))
      (q := s.input.dropWhile (isBlank space) ++ 0 :: junk)
      (by rw [← List.append_assoc, ← hinput]; rfl) (dropWhile_behind hblank _ _)]
    exact congrArg (Lib.Res.ok ()) (scanToken_behind (s.tokenAt _ _) _ junk)

/-! ## Calls -/

theorem getD_ne_eof {l : List CTType} (hall : ∀ t ∈ l, t ≠ .tEof) {i : Nat} (hi : i < l.length) :
    l.getD i .tEof ≠ .tEof := by
  rw [List.getD_eq_getElem?_getD, List.getElem?_eq_getElem hi]
  exact hall _ (List.getElem_mem hi)

/-- Only the NUL is the end. -/
theorem peekChar_of_eof (s : CUPState) (h : (scanToken s p).token = .tEof) : peekChar p = 0 := by
  cases p with
  | nil => rfl
  | cons c rest =>
    by_contra hc
    have hc : ¬ c = 0 := hc
    revert h
    unfold scanToken
    dsimp only
    rw [if_neg hc]
    change (_ : CUPState).token ≠ .tEof
    split
    · exact CTType.noConfusion
    · split
      · exact CTType.noConfusion
      · split
        · exact CTType.noConfusion
        · split
          · split
            · exact CTType.noConfusion
            · exact CTType.noConfusion
          · split
            · exact CTType.noConfusion
            · split
              · rename_i i hi
                obtain ⟨-, hlt⟩ := strindex_lt hi
                split
                · exact getD_ne_eof (by decide) hlt
                · exact getD_ne_eof (by decide) hlt
              · split
                · rename_i i hi
                  obtain ⟨-, hlt⟩ := strindex_lt hi
                  exact getD_ne_eof (by decide) hlt
                · exact (idToken_frame _ _).2.2.1

/-- Each call of a sequence returns `T_EOF`. -/
def Ended : List Bool → CUPState → Prop
  | [], _ => True
  | space :: calls, s => ∃ s', getToken space s = .ok () s' ∧ s'.token = .tEof ∧ Ended calls s'

/-- A call walks to the current position, skips the blanks `b` in front of the token `w`, and
    takes a character unless the text has ended, which is then so for ever. -/
structure Advances (space : Bool) (s s' : CUPState) : Prop where
  walk : ∃ loc, catchUp ((s.priv.getD s.input).length + 1) (s.priv.getD s.input) s.input
    s.nodes.loc = .ok loc
  skipped : ∃ b w, s.input = b ++ (w ++ s'.input) ∧ s'.priv = some (w ++ s'.input) ∧
    ∀ c ∈ b, c = 32 ∨ c = 9 ∨ space = false ∧ (c = 10 ∨ c = 13)
  forward : s'.token ≠ .tEof → s'.input.length < s.input.length
  ended : s'.token = .tEof → ∀ calls, Ended calls s'

/-- Each call of a sequence returns, whatever stands behind the NUL, and advances. -/
def LexRun : List Bool → CUPState → Prop
  | [], _ => True
  | space :: calls, s => ∃ s',
      (∀ junk, getToken space (s.behind (0 :: junk)) = .ok () (s'.behind (0 :: junk))) ∧
      Advances space s s' ∧ LexRun calls s'

/-- Behind its end the text gives `T_EOF` only. -/
theorem ended_of_nil (h : s.input = []) (hwalk : s.InWalk) (calls : List Bool) : Ended calls s := by
  induction calls generalizing s with
  | nil => trivial
  | cons space calls ih =>
    obtain ⟨loc, s', hget, hwalk', hs'⟩ := getToken_eq_scan hwalk space (p := []) (by rw [h]; rfl)
    exact ⟨s', hget, by rw [hs']; rfl, ih (by rw [hs']; rfl) hwalk'⟩

theorem isBlank_cases {space : Bool} {c : UInt8} (h : isBlank space c) :
    c = 32 ∨ c = 9 ∨ space = false ∧ (c = 10 ∨ c = 13) := by
  simpa [isBlank, or_assoc] using h

/-- What one call does in a text without a NUL. -/
theorem getToken_advances (space : Bool) (hwalk : s.InWalk) (hnul : 0 ∉ s.input) :
    ∃ s', getToken space s = .ok () s' ∧ Advances space s s' ∧ s'.InWalk ∧ 0 ∉ s'.input := by
  obtain ⟨loc, s', hget, hwalk', hs'⟩ := getToken_eq_scan hwalk space rfl
  obtain ⟨pre, hpriv, hw⟩ := hwalk
  obtain ⟨loc', hcatch⟩ := catchUp_ok hw (n := (pre ++ s.input).length + 1)
    (by rw [List.length_append]; omega) s.nodes.loc
  rw [← hpriv] at hcatch
  have hblanks : s.input = s.input.takeWhile (isBlank space) ++ s.input.dropWhile (isBlank space) :=
    List.takeWhile_append_dropWhile.symm
  have hall : ∀ c ∈ s.input.takeWhile (isBlank space), isBlank space c :=
    fun c hc => List.mem_takeWhile_imp hc
  generalize s.input.takeWhile (isBlank space) = b at hblanks hall
  generalize s.input.dropWhile (isBlank space) = p at hblanks hs'
  have hscan := scanToken_scanned { s with input := p, priv := some p, nodes := ⟨loc, .value 0⟩ } p
  have heof := peekChar_of_eof (p := p)
    { s with input := p, priv := some p, nodes := ⟨loc, .value 0⟩ }
  rw [← hs'] at hscan heof
  obtain ⟨w, hw, -, hne⟩ := hscan.consumed
  have hinput : s.input = b ++ (w ++ s'.input) := by rw [hblanks, hw]
  have hnul' : 0 ∉ s'.input := fun h0 =>
    hnul (by rw [hinput]; exact List.mem_append_right _ (List.mem_append_right _ h0))
  refine ⟨s', hget, ⟨⟨loc', hcatch⟩, ⟨b, w, hinput, ?_, fun c hc => isBlank_cases (hall c hc)⟩,
    fun htok => ?_, fun htok => ?_⟩, hwalk', hnul'⟩
  · rw [hscan.priv, hw]
  · have hlen := congrArg List.length hinput
    have hpos : 0 < w.length := List.length_pos_iff.mpr fun hnil => htok (hne hnil)
    rw [List.length_append, List.length_append] at hlen
    omega
  · refine ended_of_nil ?_ hwalk'
    have hp : p = [] := by
      cases p with
      | nil => rfl
      | cons c p =>
        obtain rfl : c = 0 := heof htok
        exact absurd (by rw [hblanks]; simp) hnul
    rw [hp] at hw
    exact (List.append_eq_nil_iff.mp hw.symm).2

theorem lexRun_of_walk (hwalk : s.InWalk) (hnul : 0 ∉ s.input) (calls : List Bool) :
    LexRun calls s := by
  induction calls generalizing s with
  | nil => trivial
  | cons space calls ih =>
    obtain ⟨s', hget, hadv, hwalk', hnul'⟩ := getToken_advances space hwalk hnul
    exact ⟨s', getToken_behind hget, hadv, ih hwalk' hnul'⟩

/-- From the start of any text, any sequence of calls stays in the text and advances. -/
theorem lexRun_text (text : Bytes) (hnul : 0 ∉ text) (s : CUPState) (calls : List Bool) :
    LexRun calls (startOf text s) :=
  lexRun_of_walk ⟨[], rfl, whole_nil _⟩ hnul calls

/-- A line break that is skipped and one that is a token, and a string that is not closed. -/
theorem lexRun_text_lines :
    LexRun [false, true, true, true] (startOf (ascii ['\r', '\n', 'x', '\r', '\n', '"']) newState) :=
  lexRun_text _ (by decide) newState _

end Cup
