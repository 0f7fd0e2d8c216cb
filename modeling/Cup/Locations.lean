/-
  Source locations (`getToken` of `src/lexer.c`). The location of a token is found in three
  steps: a walk over the last token, the number of blanks, and one more for a string.
  `AtPosition` holds after the walk; the blanks keep it when they hold no line break, and a
  string loses it. So the tokens of a run have the right locations exactly when each call is a
  `PlainStep` (`tokensRight_iff`).
-/
import Cup.Lib.TextPosition
import Cup.Boundary
import Cup.Definitions

namespace Cup

open Lib (Stop Run)
open Lib.TextPosition (isBreak lineBreaks lastLine)

/-- `loc` is the location behind the text `pre`, as far as its fields go. -/
def AtPosition (loc : Loc) (pre : Bytes) : Prop :=
  loc.line = (1 + lineBreaks pre) % 2 ^ 32 ∧ loc.col = (1 + lastLine pre) % 2 ^ 16

/-! ## The walk over a token -/

theorem whole_of_last {pre rest : Bytes} {c : UInt8} (h : c = 13 → rest.head? ≠ some 10) :
    Whole (pre ++ [c]) rest := by
  intro hlast
  rw [List.getLast?_concat] at hlast
  exact h (Option.some.inj hlast)

/-- A step of the walk stays at the right location. -/
theorem nextChar_position {pre w rest : Bytes} {c : UInt8} {loc : Loc}
    (hpre : Whole pre (c :: w ++ rest)) (hw : Whole (c :: w) rest) (hloc : AtPosition loc pre) :
    ∃ u w', c :: w = u ++ w' ∧ u ≠ [] ∧ (nextChar (c :: w ++ rest) loc).1 = w' ++ rest ∧
      Whole (pre ++ u) (w' ++ rest) ∧ Whole w' rest ∧
      AtPosition (nextChar (c :: w ++ rest) loc).2 (pre ++ u) := by
  obtain ⟨hline, hcol⟩ := hloc
  unfold nextChar
  rcases newlineChar_cases (c :: w ++ rest) with ⟨rest', he, hn⟩ | ⟨hn, d, rest', he, hd⟩ | ⟨hn, hne⟩
  · rw [List.cons_append] at he
    obtain ⟨rfl, htail⟩ := List.cons.inj he
    cases w with
    | nil =>
      have hrest : rest = 10 :: rest' := htail
      exact absurd (by rw [hrest]; rfl) (hw rfl)
    | cons d w =>
      obtain ⟨rfl, -⟩ := List.cons.inj htail
      have hbreaks : lineBreaks (pre ++ [13, 10]) = lineBreaks pre + 1 :=
        Lib.TextPosition.lineBreaks_append (q := [13, 10]) fun _ => by decide
      have hlast : lastLine (pre ++ [13, 10]) = 0 := by
        rw [List.append_cons]
        exact Lib.TextPosition.lastLine_append_break (by decide)
      rw [hn]
      refine ⟨[13, 10], w, rfl, by simp, rfl, ?_, hw.tail.tail, ?_, ?_⟩
      · rw [List.append_cons]
        exact whole_of_last fun h13 => absurd h13 (by decide)
      · show (loc.line + 1) % 2 ^ 32 = _
        rw [hbreaks, hline]
        omega
      · show 1 = _
        rw [hlast]
        rfl
  · rw [List.cons_append] at he
    obtain ⟨rfl, rfl⟩ := List.cons.inj he
    have hb : isBreak c := by
      rcases hd with ⟨rfl, -⟩ | rfl
      · decide
      · decide
    have hone : lineBreaks [c] = 1 := by
      rcases hd with ⟨rfl, -⟩ | rfl
      · decide
      · decide
    have hbreaks : lineBreaks (pre ++ [c]) = lineBreaks pre + 1 := by
      rw [← hone]
      exact Lib.TextPosition.lineBreaks_append hpre
    rw [hn]
    refine ⟨[c], w, rfl, by simp, rfl, ?_, hw.tail, ?_, ?_⟩
    · refine whole_of_last fun h13 => ?_
      rcases hd with ⟨-, hhead⟩ | rfl
      · exact hhead
      · exact absurd h13 (by decide)
    · show (loc.line + 1) % 2 ^ 32 = _
      rw [hbreaks, hline]
      omega
    · show 1 = _
      rw [Lib.TextPosition.lastLine_append_break hb]
      rfl
  · have hplain : ¬ isBreak c := by
      unfold isBreak
      rw [Bool.or_eq_true, beq_iff_eq, beq_iff_eq]
      rintro (rfl | rfl)
      · exact (hne (w ++ rest)).2 rfl
      · exact (hne (w ++ rest)).1 rfl
    have hall : ∀ d ∈ [c], ¬ isBreak d := by
      intro d hd
      rw [List.mem_singleton.mp hd]
      exact hplain
    have hbreaks : lineBreaks (pre ++ [c]) = lineBreaks pre := by
      rw [Lib.TextPosition.lineBreaks_append (q := [c]) hpre, Lib.TextPosition.lineBreaks_plain hall]
      rfl
    have hlast : lastLine (pre ++ [c]) = lastLine pre + 1 :=
      Lib.TextPosition.lastLine_append_plain hall
    rw [hn]
    refine ⟨[c], w, rfl, by simp, rfl, ?_, hw.tail, ?_, ?_⟩
    · refine whole_of_last fun h13 => ?_
      exact absurd (by rw [h13]; decide) hplain
    · rw [hbreaks]
      exact hline
    · show (loc.col + 1) % 2 ^ 16 = _
      rw [hlast, hcol]
      omega

/-- The walk over a token ends at the right location. -/
theorem catchUp_position {pre w rest : Bytes} {loc : Loc} (hpre : Whole pre (w ++ rest))
    (hw : Whole w rest) (hloc : AtPosition loc pre) {n : Nat} (hn : w.length < n) :
    ∃ loc', catchUp n (w ++ rest) rest loc = .ok loc' ∧ AtPosition loc' (pre ++ w) := by
  induction n generalizing pre w loc with
  | zero => omega
  | succ n ih =>
    unfold catchUp
    cases w with
    | nil =>
      refine ⟨loc, if_pos rfl, ?_⟩
      rw [List.append_nil]
      exact hloc
    | cons c w =>
      obtain ⟨u, w', hsplit, hu, hnext, hpre', hw', hloc'⟩ := nextChar_position hpre hw hloc
      have hlen : (c :: w ++ rest).length = w.length + rest.length + 1 := by
        simp only [List.length_append, List.length_cons]
        omega
      have hupos : 0 < u.length := List.length_pos_iff.mpr hu
      have hwlen := congrArg List.length hsplit
      rw [List.length_append, List.length_cons] at hwlen
      rw [List.length_cons] at hn
      rw [if_neg (by omega), if_neg (by omega)]
      cases hstep : nextChar (c :: w ++ rest) loc with
      | mk stream loc₁ =>
        rw [hstep] at hnext hloc'
        dsimp only at hnext hloc' ⊢
        rw [hnext, hsplit, ← List.append_assoc]
        exact ih hpre' hw' hloc' (by omega)

/-! ## A call of `getToken` -/

/-- Scanning keeps the location, but for a string. -/
theorem scanToken_loc (s : CUPState) (p : Bytes) :
    (scanToken s p).nodes.loc.line = s.nodes.loc.line ∧ (scanToken s p).nodes.loc.col =
      if p.head? = some 34 then (s.nodes.loc.col + 1) % 2 ^ 16 else s.nodes.loc.col := by
  have hid : ∀ (s' : CUPState) (str : Bytes),
      (idToken s' str).1.nodes.loc.line = s'.nodes.loc.line ∧
        (idToken s' str).1.nodes.loc.col = s'.nodes.loc.col := by
    intro s' str
    unfold idToken
    cases keyword str with
    | none => exact ⟨rfl, rfl⟩
    | some t => exact ⟨rfl, rfl⟩
  cases p with
  | nil => exact ⟨rfl, (if_neg (by decide)).symm⟩
  | cons c rest =>
    by_cases h34 : c = 34
    · subst h34
      exact ⟨rfl, (if_pos rfl).symm⟩
    · have hhead : (c :: rest).head? ≠ some 34 := fun h => h34 (Option.some.inj h)
      rw [if_neg hhead]
      unfold scanToken
      dsimp only
      rw [if_neg h34]
      split
      · exact ⟨rfl, rfl⟩
      · split
        · exact ⟨rfl, rfl⟩
        · split
          · exact ⟨rfl, rfl⟩
          · split
            · split
              · exact ⟨rfl, rfl⟩
              · exact ⟨rfl, rfl⟩
            · split
              · exact ⟨rfl, rfl⟩
              · split
                · split
                  · exact ⟨rfl, rfl⟩
                  · exact ⟨rfl, rfl⟩
                · split
                  · exact ⟨rfl, rfl⟩
                  · exact hid _ _

/-- `text` is read up to the current token, which starts behind `pre`, at its location. -/
def ReadTo (text : Bytes) (s : CUPState) : Prop :=
  ∃ pre w, text = pre ++ (w ++ s.input) ∧ s.priv.getD s.input = w ++ s.input ∧
    Whole pre (w ++ s.input) ∧ Whole w s.input ∧ AtPosition s.nodes.loc pre

/-- The blanks in front of the next token hold no line break, and it is no string. -/
def PlainStep (space : Bool) (s : CUPState) : Prop :=
  (∀ c ∈ s.input.takeWhile (isBlank space), ¬ isBreak c) ∧
    (s.input.dropWhile (isBlank space)).head? ≠ some 34

/-- The location of the current token, if it fits: 1 and the number of line breaks in front of
    it; 1 and the number of characters behind the last of them. -/
def LocationRight (text : Bytes) (s : CUPState) : Prop :=
  ∃ pre p, text = pre ++ p ∧ s.priv = some p ∧
    (1 + lineBreaks pre < 2 ^ 32 → 1 + lastLine pre < 2 ^ 16 →
      s.nodes.loc.line = 1 + lineBreaks pre ∧ s.nodes.loc.col = 1 + lastLine pre)

/-- Every location in the text fits its fields. -/
def Fits (text : Bytes) : Prop := ∀ pre p, text = pre ++ p →
  1 + lineBreaks pre < 2 ^ 32 ∧ 1 + lastLine pre < 2 ^ 16

/-- What a call does: from the end of the last token it skips the blanks `b`. -/
theorem getToken_located {text : Bytes} {s : CUPState} (h : ReadTo text s) (space : Bool) :
    ∃ s' pre loc, getToken space s = .ok () s' ∧
      text = pre ++ (s.input.takeWhile (isBlank space) ++ s.input.dropWhile (isBlank space)) ∧
      Whole pre (s.input.takeWhile (isBlank space) ++ s.input.dropWhile (isBlank space)) ∧
      AtPosition loc pre ∧ s'.priv = some (s.input.dropWhile (isBlank space)) ∧
      (∃ w, s.input.dropWhile (isBlank space) = w ++ s'.input ∧ Whole w s'.input) ∧
      s'.nodes.loc.line = loc.line ∧ s'.nodes.loc.col =
        (if (s.input.dropWhile (isBlank space)).head? = some 34 then
          (loc.col + (s.input.takeWhile (isBlank space)).length + 1) % 2 ^ 16
        else (loc.col + (s.input.takeWhile (isBlank space)).length) % 2 ^ 16) := by
  obtain ⟨pre, w, htext, hpriv, hpre, hw, hloc⟩ := h
  obtain ⟨loc, hcatch, hloc'⟩ := catchUp_position hpre hw hloc
    (n := (w ++ s.input).length + 1) (by rw [List.length_append]; omega)
  have hblanks : s.input.takeWhile (isBlank space) ++ s.input.dropWhile (isBlank space) = s.input :=
    List.takeWhile_append_dropWhile
  have hskipped : s.input.length - (s.input.dropWhile (isBlank space)).length =
      (s.input.takeWhile (isBlank space)).length := by
    have hlen := congrArg List.length hblanks
    rw [List.length_append] at hlen
    omega
  have hget : getToken space s = .ok () (scanToken { s with
      input := s.input.dropWhile (isBlank space)
      priv := some (s.input.dropWhile (isBlank space))
      nodes := ⟨{ loc with
        col := (loc.col + (s.input.takeWhile (isBlank space)).length) % 2 ^ 16 }, .value 0⟩ }
      (s.input.dropWhile (isBlank space))) := by
    unfold getToken
    dsimp only
    rw [hpriv, hcatch, ← hskipped]
  have hscan := scanToken_scanned { s with
    input := s.input.dropWhile (isBlank space)
    priv := some (s.input.dropWhile (isBlank space))
    nodes := ⟨{ loc with
      col := (loc.col + (s.input.takeWhile (isBlank space)).length) % 2 ^ 16 }, .value 0⟩ }
    (s.input.dropWhile (isBlank space))
  have hlocs := scanToken_loc { s with
    input := s.input.dropWhile (isBlank space)
    priv := some (s.input.dropWhile (isBlank space))
    nodes := ⟨{ loc with
      col := (loc.col + (s.input.takeWhile (isBlank space)).length) % 2 ^ 16 }, .value 0⟩ }
    (s.input.dropWhile (isBlank space))
  obtain ⟨u, hu, hwhole, -⟩ := hscan.consumed
  refine ⟨_, pre ++ w, loc, hget, ?_, ?_, hloc', hscan.priv, ⟨u, hu, hwhole⟩, hlocs.1, ?_⟩
  · rw [hblanks, htext, List.append_assoc]
  · rw [hblanks]
    intro hlast
    cases w with
    | nil =>
      rw [List.append_nil] at hlast
      exact hpre hlast
    | cons c w =>
      rw [List.getLast?_append_of_ne_nil _ (List.cons_ne_nil c w)] at hlast
      exact hw hlast
  · rw [hlocs.2]
    split
    · dsimp only
      omega
    · rfl

/-- Behind a call the token starts at one place only. -/
theorem locationRight_iff {text : Bytes} (pre : Bytes) {p : Bytes} {s : CUPState} (htext : text = pre ++ p)
    (hpriv : s.priv = some p) (hfits : 1 + lineBreaks pre < 2 ^ 32 ∧ 1 + lastLine pre < 2 ^ 16) :
    LocationRight text s ↔
      s.nodes.loc.line = 1 + lineBreaks pre ∧ s.nodes.loc.col = 1 + lastLine pre := by
  constructor
  · rintro ⟨pre', p', htext', hpriv', hloc⟩
    obtain rfl := Option.some.inj (hpriv.symm.trans hpriv')
    obtain rfl := List.append_cancel_right (htext.symm.trans htext')
    exact hloc hfits.1 hfits.2
  · intro h
    exact ⟨pre, p, htext, hpriv, fun _ _ => h⟩

/-- Without a line break among the blanks, and for another token than a string, the location is
    right, and so is that of the next walk. -/
theorem getToken_plain {text : Bytes} {s : CUPState} (h : ReadTo text s) {space : Bool}
    (hplain : PlainStep space s) :
    ∃ s', getToken space s = .ok () s' ∧ LocationRight text s' ∧ ReadTo text s' := by
  obtain ⟨s', pre, loc, hget, htext, hpre, ⟨hline, hcol⟩, hpriv, ⟨w, hw, hwhole⟩, hline', hcol'⟩ :=
    getToken_located h space
  obtain ⟨hblanks, hstring⟩ := hplain
  rw [if_neg hstring] at hcol'
  generalize s.input.takeWhile (isBlank space) = b at htext hpre hcol' hblanks
  generalize s.input.dropWhile (isBlank space) = p at htext hpre hpriv hw
  have hcut : Whole pre b := by
    intro hlast hb
    cases b with
    | nil => cases hb
    | cons c b => exact hpre hlast hb
  have hpos : AtPosition s'.nodes.loc (pre ++ b) := by
    constructor
    · rw [hline', hline, Lib.TextPosition.lineBreaks_append hcut,
        Lib.TextPosition.lineBreaks_plain hblanks]
      rfl
    · rw [hcol', hcol, Lib.TextPosition.lastLine_append_plain hblanks]
      omega
  refine ⟨s', hget, ⟨pre ++ b, p, ?_, hpriv, fun hl hc => ?_⟩, ⟨pre ++ b, w, ?_, ?_, ?_, hwhole, hpos⟩⟩
  · rw [htext, List.append_assoc]
  · rw [hpos.1, hpos.2, Nat.mod_eq_of_lt hl, Nat.mod_eq_of_lt hc]
    exact ⟨rfl, rfl⟩
  · rw [htext, hw, List.append_assoc]
  · rw [hpriv, ← hw]
    rfl
  · rw [← hw]
    intro hlast
    cases b with
    | nil =>
      rw [List.append_nil] at hlast
      exact hpre hlast
    | cons c b =>
      -- no blank is a carriage return
      rw [List.getLast?_append_of_ne_nil _ (List.cons_ne_nil c b)] at hlast
      exact absurd (by decide) (hblanks 13 (List.mem_of_getLast? hlast))

/-- In a text whose locations fit, any other call returns a wrong location. -/
theorem plainStep_of_right {text : Bytes} {s s' : CUPState} (h : ReadTo text s) (hfits : Fits text)
    {space : Bool} (hget : getToken space s = .ok () s') (hright : LocationRight text s') :
    PlainStep space s := by
  obtain ⟨t, pre, loc, hget', htext, hpre, ⟨hline, hcol⟩, hpriv, -, hline', hcol'⟩ :=
    getToken_located h space
  obtain rfl : s' = t := (Lib.Res.ok.inj (hget.symm.trans hget')).2
  unfold PlainStep
  generalize s.input.takeWhile (isBlank space) = b at htext hpre hcol' ⊢
  generalize s.input.dropWhile (isBlank space) = p at htext hpre hpriv hcol' ⊢
  have htext' : text = (pre ++ b) ++ p := by rw [htext, List.append_assoc]
  obtain ⟨hfitPre, -⟩ := hfits pre (b ++ p) htext
  have hfit := hfits (pre ++ b) p htext'
  obtain ⟨hrightLine, hrightCol⟩ := (locationRight_iff _ htext' hpriv hfit).mp hright
  have hcut : Whole pre b := by
    intro hlast hb
    cases b with
    | nil => cases hb
    | cons c b => exact hpre hlast hb
  have hblanks : ∀ c ∈ b, ¬ isBreak c := by
    intro c hc hbreak
    have hpos := Lib.TextPosition.lineBreaks_pos hc hbreak
    rw [hline', hline, Nat.mod_eq_of_lt hfitPre, Lib.TextPosition.lineBreaks_append hcut] at hrightLine
    omega
  refine ⟨hblanks, fun hstring => ?_⟩
  have hfitCol := hfit.2
  rw [Lib.TextPosition.lastLine_append_plain hblanks] at hfitCol hrightCol
  rw [hcol', if_pos hstring, hcol] at hrightCol
  omega

/-! ## Runs -/

/-- The state in which `parse` starts to read `text`: the location is (1, 1). -/
def startOf (text : Bytes) (s : CUPState) : CUPState :=
  { s with priv := none, input := text, nodes := ⟨⟨.nBlock, 1, 1⟩, .value 0⟩ }

/-- A sequence of calls, with their `space` flags, returns tokens with the right locations. -/
def TokensRight (text : Bytes) : List Bool → CUPState → Prop
  | [], _ => True
  | space :: calls, s => ∃ s', getToken space s = .ok () s' ∧ LocationRight text s' ∧
      TokensRight text calls s'

/-- Each call of a sequence is a plain step. -/
def StepsPlain : List Bool → CUPState → Prop
  | [], _ => True
  | space :: calls, s => PlainStep space s ∧
      ∀ s', getToken space s = .ok () s' → StepsPlain calls s'

theorem tokensRight_of_plain {text : Bytes} {s : CUPState} (h : ReadTo text s) {calls : List Bool}
    (hplain : StepsPlain calls s) : TokensRight text calls s := by
  induction calls generalizing s with
  | nil => trivial
  | cons space calls ih =>
    obtain ⟨s', hget, hright, hread⟩ := getToken_plain h hplain.1
    exact ⟨s', hget, hright, ih hread (hplain.2 s' hget)⟩

theorem plain_of_tokensRight {text : Bytes} {s : CUPState} (h : ReadTo text s) (hfits : Fits text)
    {calls : List Bool} (hright : TokensRight text calls s) : StepsPlain calls s := by
  induction calls generalizing s with
  | nil => trivial
  | cons space calls ih =>
    obtain ⟨s', hget, hloc, hrest⟩ := hright
    have hplain := plainStep_of_right h hfits hget hloc
    refine ⟨hplain, fun t ht => ?_⟩
    obtain ⟨t', hget', -, hread⟩ := getToken_plain h hplain
    obtain rfl : t = t' := (Lib.Res.ok.inj (ht.symm.trans hget')).2
    obtain rfl : t = s' := (Lib.Res.ok.inj (ht.symm.trans hget)).2
    exact ih hread hrest

theorem readTo_startOf (text : Bytes) (s : CUPState) : ReadTo text (startOf text s) :=
  ⟨[], [], rfl, rfl, whole_nil _, whole_nil _, rfl, rfl⟩

/-- From the start of any text the tokens have the right locations when no call skips a line
    break and none returns a string; in a text whose locations all fit, only then. -/
theorem tokensRight_iff (text : Bytes) (s : CUPState) (calls : List Bool) :
    (StepsPlain calls (startOf text s) → TokensRight text calls (startOf text s)) ∧
    (Fits text → (TokensRight text calls (startOf text s) ↔ StepsPlain calls (startOf text s))) :=
  ⟨tokensRight_of_plain (readTo_startOf text s), fun hfits =>
    ⟨plain_of_tokensRight (readTo_startOf text s) hfits, tokensRight_of_plain (readTo_startOf text s)⟩⟩

/-- `x` behind a line break that is skipped, and a string. -/
theorem not_tokensRight_newline :
    ¬ TokensRight (ascii ['\n', 'x']) [false] (startOf (ascii ['\n', 'x']) newState) ∧
    ¬ TokensRight (ascii ['"', '"']) [true] (startOf (ascii ['"', '"']) newState) := by
  constructor
  · rintro ⟨s', hget, hright, -⟩
    have hwrong : ∃ s', getToken false (startOf (ascii ['\n', 'x']) newState) = .ok () s' ∧
        s'.priv = some (ascii ['x']) ∧ s'.nodes.loc.line = 1 := ⟨_, rfl, rfl, rfl⟩
    obtain ⟨t, hget', hpriv, hline⟩ := hwrong
    obtain rfl : s' = t := (Lib.Res.ok.inj (hget.symm.trans hget')).2
    obtain ⟨h, -⟩ := (locationRight_iff [10] rfl hpriv (by decide)).mp hright
    rw [hline] at h
    exact absurd h (by decide)
  · rintro ⟨s', hget, hright, -⟩
    have hwrong : ∃ s', getToken true (startOf (ascii ['"', '"']) newState) = .ok () s' ∧
        s'.priv = some (ascii ['"', '"']) ∧ s'.nodes.loc.col = 2 := ⟨_, rfl, rfl, rfl⟩
    obtain ⟨t, hget', hpriv, hcol⟩ := hwrong
    obtain rfl : s' = t := (Lib.Res.ok.inj (hget.symm.trans hget')).2
    obtain ⟨-, h⟩ := (locationRight_iff [] rfl hpriv (by decide)).mp hright
    rw [hcol] at h
    exact absurd h (by decide)

end Cup
