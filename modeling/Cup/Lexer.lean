/-
  The lexer (`src/lexer.c`).

  The text behind `input_stream` is the list of bytes that are left; its end reads as NUL,
  and so does a zero byte in it. Two positions of one text are equal when as much text is
  left behind them.
-/
import Cup.State

namespace Cup

open Lib (Stop Run)

/-! ## Character classes -/

/-- `*p`, with NUL at the end of the text. -/
def peekChar (p : Bytes) : UInt8 := p.headD 0

/-- `isID`. -/
def isID (c : UInt8) : Bool :=
  '/'.toUInt8 < c && (c < ':'.toUInt8 || '@'.toUInt8 < c) && (c < '['.toUInt8 || '^'.toUInt8 < c)
    && (c < '\x7b'.toUInt8 || 0x7F < c)

/-- `strindex`: the position of `c` in `str`. -/
def strindex (str : Bytes) (c : UInt8) : Option Nat := str.findIdx? (· == c)

/-! ## The literal pool -/

/-- `getData`, as an offset into `state->data`; `none` is NULL. -/
def getData (s : CUPState) (i : Nat) : Option Nat :=
  if s.data.length ≤ i then none else some i

/-- `memcmp(data + k, str, len) == 0`. -/
def matchesAt (data str : Bytes) (k : Nat) : Bool := (data.drop k).take str.length == str

/-- The loop of `getdata` from offset `k` down. -/
def getdataLoop (data str : Bytes) : Nat → Option Nat
  | 0 => if matchesAt data str 0 then some 0 else none
  | k + 1 => if matchesAt data str (k + 1) then some (k + 1) else getdataLoop data str k

/-- `getdata`. With no data yet the pointer it finds for an empty string is NULL. -/
def getdata (data str : Bytes) : Option Nat :=
  if data.length < str.length then none
  else if data = [] then none
  else getdataLoop data str (data.length - str.length)

/-- The array storage `primary` appends to the pool: `len` zeroed slots of 8 bytes. -/
def reserveArray (data : Bytes) (len : Nat) : Bytes := data ++ List.replicate (len * 8) 0

/-! ## Identifiers -/

/-- An ASCII string of the source. -/
def ascii (cs : List Char) : Bytes := cs.map Char.toUInt8

/-- The keywords of `idToken`. -/
def keyword (str : Bytes) : Option CTType :=
  if str = ascii ['i', 'f'] then some .tIf
  else if str = ascii ['f', 'o', 'r'] then some .tFor
  else if str = ascii ['e', 'l', 's', 'e'] then some .tElse
  else if str = ascii ['b', 'r', 'e', 'a', 'k'] then some .tBreak
  else if str = ascii ['w', 'h', 'i', 'l', 'e'] then some .tWhile
  else if str = ascii ['r', 'e', 't', 'u', 'r', 'n'] then some .tReturn
  else if str = ascii ['c', 'o', 'n', 't', 'i', 'n', 'u', 'e'] then some .tContinue
  else none

/-- `idToken`: a keyword sets the token only; any other string is duplicated. -/
def idToken (s : CUPState) (str : Bytes) : CUPState × Option CStr :=
  match keyword str with
  | some t => ({ s with nodes := s.nodes.setToken t }, none)
  | none =>
    let dup : CStr := ⟨s.strings, str⟩
    ({ s with
        nodes := { s.nodes.setToken .tIdentifier with payload := .svalue dup }
        strings := s.strings + 1 }, some dup)

/-! ## Locations -/

/-- `newlineChar`: the length of the line break at `stream`. -/
def newlineChar (stream : Bytes) : Nat :=
  match stream with
  | 13 :: 10 :: _ => 2
  | 13 :: _ => 1
  | 10 :: _ => 1
  | _ => 0

/-- `nextChar`. -/
def nextChar (stream : Bytes) (next : Loc) : Bytes × Loc :=
  match newlineChar stream with
  | 0 => (stream.drop 1, { next with col := (next.col + 1) % 2 ^ 16 })
  | i => (stream.drop i, { next with col := 1, line := (next.line + 1) % 2 ^ 32 })

/-- `while (priv_stream != input_stream) nextChar(...)`. A step over `input_stream` runs past
    the end of the text. -/
def catchUp : Nat → Bytes → Bytes → Loc → Except Stop Loc
  | 0, _, _, _ => .error .fuel
  | n + 1, priv, input, loc =>
    if priv.length = input.length then .ok loc
    else if priv.length < input.length then .error (.fault "read past the end of the text")
    else
      let (priv, loc) := nextChar priv loc
      catchUp n priv input loc

/-! ## Numbers -/

/-- The digit loops of `binaryChar`, `octalChar` and `hexChar`: `_` is skipped, a digit shifts
    the value by `bits`. -/
def digitLoop (bits : Nat) (digit : UInt8 → Option Nat) : Nat → Bytes → Nat × Bytes
  | value, [] => (value, [])
  | value, c :: p =>
    if c = '_'.toUInt8 then digitLoop bits digit value p
    else match digit c with
      | some d => digitLoop bits digit (value * 2 ^ bits % 2 ^ 64 ||| d) p
      | none => (value, c :: p)

/-- `binaryChar`. -/
def binaryChar (p : Bytes) : Nat × Bytes :=
  digitLoop 1 (fun c => if c = 48 || c = 49 then some (c.toNat % 2) else none) 0 p

/-- `octalChar`. -/
def octalChar (p : Bytes) : Nat × Bytes :=
  digitLoop 3 (fun c => if 48 ≤ c && c ≤ 55 then some (c.toNat % 8) else none) 0 p

/-- `hexChar`. -/
def hexChar (p : Bytes) : Nat × Bytes :=
  digitLoop 4 (fun c =>
    if 97 ≤ c && c ≤ 102 then some (c.toNat - 87)
    else if 65 ≤ c && c ≤ 70 then some (c.toNat - 55)
    else if 48 ≤ c && c ≤ 57 then some (c.toNat - 48)
    else none) 0 p

/-- `zeroChar`: the value and the rest behind a prefix `b`, `o` or `x`. -/
def zeroChar (p : Bytes) : Option (Nat × Bytes) :=
  let f := peekChar p ||| 32
  if f = 'b'.toUInt8 then some (binaryChar (p.drop 1))
  else if f = 'o'.toUInt8 then some (octalChar (p.drop 1))
  else if f = 'x'.toUInt8 then some (hexChar (p.drop 1))
  else none

/-- A decimal digit. -/
def isDigit (c : UInt8) : Bool := 48 ≤ c && c ≤ 57

/-- The loop of `numberChar`. -/
def numberLoop : Nat → Bytes → Nat × Bytes
  | value, [] => (value, [])
  | value, c :: p =>
    if c = '_'.toUInt8 then numberLoop value p
    else if isDigit c then numberLoop ((value * 10 + (c.toNat - 48)) % 2 ^ 64) p
    else (value, c :: p)

/-- `numberChar`. -/
def numberChar (p : Bytes) : Nat × Bytes := numberLoop 0 p

/-! ## Tokens -/

def types1 : List CTType :=
  [.tAdd, .tSub, .tMul, .tDiv, .tMod, .tAnd, .tOr, .tLess, .tGreat, .tXor, .tNot, .tEq]

def doubles : List CTType :=
  [.tAddeq, .tSubeq, .tMuleq, .tDiveq, .tModeq, .tAndeq, .tOreq, .tLesseq, .tGreateq, .tXoreq,
    .tNoteq, .tEqeq]

def types2 : List CTType :=
  [.tCall, .tCrb, .tOcb, .tCcb, .tOsb, .tCsb, .tDot, .tComma, .tColon, .tScolon, .tImport, .tAsk,
    .tAt, .tThis, .tCatnl, .tExternal]

/-- The operators that `=` can double. -/
def operatorChars : Bytes := ascii ['+', '-', '*', '/', '%', '&', '|', '<', '>', '^', '!', '=']

/-- The delimiters of one character. -/
def delimiterChars : Bytes :=
  ascii ['(', ')', '\x7b', '\x7d', '[', ']', '.', ',', ':', ';', '#', '?', '@', '$', '\\', '~']

/-- The blanks skipped before a token; line breaks only when `space` is 0. -/
def isBlank (space : Bool) (c : UInt8) : Bool :=
  c = 32 || c = 9 || (!space && (c = 10 || c = 13))

/-- The literal at `p`, behind its opening quote: its characters and the text behind it. -/
def stringChars : Bytes → Bytes × Bytes
  | [] => ([], [])
  | c :: p =>
    if c = 0 then ([], c :: p)
    else if c = 34 then ([], p)
    else
      let (str, rest) := stringChars p
      (c :: str, rest)

/-- Share the literal or append it with its NUL: the offset of the literal and the new pool. -/
def internString (data str : Bytes) : Nat × Bytes :=
  match getdata data str with
  | some i => (i, data)
  | none => (data.length, data ++ str ++ [0])

/-- `getToken` on the text `p` behind the blanks. -/
def scanToken (s : CUPState) (p : Bytes) : CUPState :=
  let tok (t : CTType) (rest : Bytes) : CUPState :=
    { s with input := rest, nodes := s.nodes.setToken t }
  let number (v : Nat) (rest : Bytes) : CUPState :=
    { s with input := rest, nodes := { s.nodes.setToken .tNumber with payload := .value v } }
  match p with
  | [] => tok .tEof []
  | c :: rest =>
    if c = 0 then tok .tEof (c :: rest)
    else if c = 34 then
      let (str, rest) := stringChars rest
      let (value, data) := internString s.data str
      { s with
        input := rest
        data := data
        nodes := ⟨⟨.tString, (s.nodes.loc.col + 1) % 2 ^ 16, s.nodes.loc.line⟩, .value value⟩ }
    else match (if c = 48 then zeroChar rest else none) with
    | some (value, rest) => number value rest
    | none =>
      if isDigit c then
        let (value, rest) := numberChar (c :: rest)
        number value rest
      else if c = '.'.toUInt8 then
        match rest with
        | 46 :: 46 :: rest => tok .tVarg rest
        | _ => tok .tDot rest
      else if newlineChar (c :: rest) ≠ 0 then
        tok .tNl ((c :: rest).drop (newlineChar (c :: rest)))
      else match strindex operatorChars c with
      | some i =>
        if peekChar rest ≠ '='.toUInt8 then tok (types1.getD i .tEof) rest
        else tok (doubles.getD i .tEof) (rest.drop 1)
      | none =>
        match strindex delimiterChars c with
        | some i => tok (types2.getD i .tEof) rest
        | none =>
          let str := c :: rest.takeWhile isID
          (idToken { s with input := rest.dropWhile isID } str).1

/-- `getToken`. -/
def getToken (space : Bool) : Comp Unit := fun s =>
  let priv := s.priv.getD s.input
  match catchUp (priv.length + 1) priv s.input s.nodes.loc with
  | .error e => .stop e s
  | .ok loc =>
    let p := s.input.dropWhile (isBlank space)
    let skipped := s.input.length - p.length
    let loc := { loc with col := (loc.col + skipped) % 2 ^ 16 }
    .ok () (scanToken { s with input := p, priv := some p, nodes := ⟨loc, .value 0⟩ } p)

end Cup
