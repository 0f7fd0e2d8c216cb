/-
  The language of signatures (`cup_type_parse` of `src/types.c`).

  `SigText sig S`: the string `sig` is written as the signature `S`. `ListText` is the text of a
  parameter list up to its closing bracket; it is read without ambiguity (`listText_unique`).
  What the parser does with any string is `cupTypeParse_eq_ok` and `cupTypeParse_eq_overflow`;
  `meetsSignature_iff` compares it with the language.
-/
import Cup.Progress

namespace Cup

open Lib (Stop Run)

/-! ## The language -/

/-- The types that a signature can name. -/
inductive SigType where
  | base (k : CupKind)
  | pointer (t : SigType)
  deriving DecidableEq

/-- A type, or a function type. -/
inductive Sig where
  | type (t : SigType)
  | func (ret : SigType) (params : List SigType)

/-- The type of a type code; `p` is a pointer to `u8`. -/
def codeType (c : Bytes) : Option SigType :=
  if c = ascii ['p'] then some (.pointer (.base .typeUint8)) else (typeCode c).map .base

/-- A pointer level for each of `n` stars. -/
def starred : Nat → SigType → SigType
  | 0, t => t
  | n + 1, t => .pointer (starred n t)

/-- `T`: a type code and stars. -/
def TypeText (t : Bytes) (T : SigType) : Prop :=
  ∃ c n U, t = c ++ List.replicate n 42 ∧ codeType c = some U ∧ T = starred n U

/-- `T1,…,Tn)` and the text behind it, for `n > 0`. -/
inductive ListText : Bytes → List SigType → Bytes → Prop where
  | last {t rest : Bytes} {T : SigType} : TypeText t T → ListText (t ++ 41 :: rest) [T] rest
  | more {t p rest : Bytes} {T : SigType} {Ts : List SigType} :
      TypeText t T → ListText p Ts rest → ListText (t ++ 44 :: p) (T :: Ts) rest

/-- The parameters behind the opening bracket, with the text behind them. -/
def ParamText (p : Bytes) (Ts : List SigType) (rest : Bytes) : Prop :=
  p = 41 :: rest ∧ Ts = [] ∨ ListText p Ts rest

/-- The limit on the number of parameters. -/
def maxParams : Nat := 254

/-- `T`, or `T(T1,…,Tn)` without a plain `v` among the parameters. -/
inductive SigText : Bytes → Sig → Prop where
  | type {t : Bytes} {T : SigType} : TypeText t T → SigText t (.type T)
  | func {t p : Bytes} {T : SigType} {Ts : List SigType} : TypeText t T → ParamText p Ts [] →
      .base .typeVoid ∉ Ts → Ts.length ≤ maxParams → SigText (t ++ 40 :: p) (.func T Ts)

/-- The type reference `t` is the type `T`. -/
def IsType (types : List CUPType) : TRef → SigType → Prop
  | t, .base k => t = .base k
  | t, .pointer T => ∃ ty e, typeAt types t = some ty ∧ ty.cuptype = .typePointer ∧
      ty.data = .element e ∧ IsType types e T

/-- The slot `slot` holds the type `T`. -/
def IsSlot (types : List CUPType) (slot : Slot) (T : SigType) : Prop :=
  ∃ t, slot = .type t ∧ IsType types t T

/-- The type reference `t` is what a signature describes: of a function, exactly its parameters. -/
def IsSig (types : List CUPType) (t : TRef) : Sig → Prop
  | .type T => IsType types t T
  | .func T Ts => ∃ ty ret args, typeAt types t = some ty ∧ ty.cuptype = .typeFunction ∧
      ty.size = Ts.length ∧ ty.data = .func ret args ∧ IsSlot types ret T ∧
      List.Forall₂ (IsSlot types) (args.take Ts.length) Ts

/-! ## Reading a type text -/

theorem starred_eq_base {n : Nat} {U : SigType} {k : CupKind} (h : .base k = starred n U) :
    n = 0 ∧ U = .base k := by
  cases n with
  | zero => exact ⟨rfl, h.symm⟩
  | succ n => cases h

/-- A plain code: letters and digits, and not `p`. -/
def PlainCode (c : Bytes) : Prop := (∀ x ∈ c, isalnum x) ∧ c ≠ ascii ['p']

theorem alnum_of_ite {P : Bytes → Prop} {c code : Bytes} {k : CupKind} {rest : Option CupKind}
    (hcode : P code) (hrest : rest ≠ none → P c) :
    (if c = code then some k else rest) ≠ none → P c := by
  intro h
  by_cases hc : c = code
  · rw [hc]
    exact hcode
  · rw [if_neg hc] at h
    exact hrest h

/-- The codes are made of letters and digits. -/
theorem typeCode_alnum {c : Bytes} (h : typeCode c ≠ none) : ∀ x ∈ c, isalnum x := by
  have hall : typeCode c ≠ none → c.all isalnum := by
    unfold typeCode
    repeat' refine alnum_of_ite (P := fun c => c.all isalnum) (by decide) ?_
    exact fun h => absurd rfl h
  exact List.all_eq_true.mp (hall h)

theorem plainCode_of_some {c : Bytes} (h : typeCode c ≠ none) : PlainCode c := by
  refine ⟨typeCode_alnum h, ?_⟩
  rintro rfl
  exact h (by decide)

theorem codeType_plain {c : Bytes} (h : PlainCode c) : codeType c = (typeCode c).map .base :=
  if_neg h.2

theorem codeType_alnum {c : Bytes} {U : SigType} (h : codeType c = some U) :
    ∀ x ∈ c, isalnum x := by
  by_cases hp : c = ascii ['p']
  · rw [hp]
    exact List.all_eq_true.mp (by decide)
  · rw [codeType, if_neg hp] at h
    refine typeCode_alnum fun hnone => ?_
    rw [hnone] at h
    cases h

/-- A text of a base type is its code. -/
theorem typeText_base {t : Bytes} {k : CupKind} : TypeText t (.base k) ↔ typeCode t = some k := by
  constructor
  · rintro ⟨c, n, U, rfl, hc, hk⟩
    obtain ⟨rfl, rfl⟩ := starred_eq_base hk
    rw [List.replicate_zero, List.append_nil]
    unfold codeType at hc
    split at hc
    · cases hc
    · obtain ⟨j, hj, hjk⟩ := Option.map_eq_some_iff.mp hc
      cases hjk
      exact hj
  · intro h
    have hplain := plainCode_of_some (c := t) (by rw [h]; simp)
    exact ⟨t, 0, .base k, by simp, by rw [codeType_plain hplain, h]; rfl, rfl⟩

/-- Text behind a run of letters and digits. -/
def Bounded (q : Bytes) : Prop := ∀ x ∈ q.head?, ¬ isalnum x

theorem takeWhile_code {c q : Bytes} (hc : ∀ x ∈ c, isalnum x) (hq : Bounded q) :
    (c ++ q).takeWhile isalnum = c := by
  rw [List.takeWhile_append_of_pos hc]
  cases q with
  | nil => simp
  | cons x q => rw [List.takeWhile_cons_of_neg (hq x rfl), List.append_nil]

theorem dropWhile_code {c q : Bytes} (hc : ∀ x ∈ c, isalnum x) (hq : Bounded q) :
    (c ++ q).dropWhile isalnum = q := by
  rw [List.dropWhile_append_of_pos hc]
  cases q with
  | nil => rfl
  | cons x q => exact List.dropWhile_cons_of_neg (hq x rfl)

theorem bounded_dropWhile (p : Bytes) : Bounded (p.dropWhile isalnum) := by
  intro x hx hal
  have hne : p.dropWhile isalnum ≠ [] := by
    intro hnil
    rw [hnil] at hx
    cases hx
  have hhead := List.head_dropWhile_not isalnum hne
  rw [List.head?_eq_some_head hne] at hx
  obtain rfl := Option.some.inj hx
  rw [hal] at hhead
  cases hhead

/-- Characters of a type text. -/
theorem typeText_chars {t : Bytes} {T : SigType} (h : TypeText t T) :
    ∀ x ∈ t, isalnum x ∨ x = 42 := by
  obtain ⟨c, n, U, rfl, hc, -⟩ := h
  intro x hx
  rcases List.mem_append.mp hx with hx | hx
  · exact .inl (codeType_alnum hc x hx)
  · exact .inr (List.eq_of_mem_replicate hx)

/-- A text denotes one type. -/
theorem typeText_unique {t : Bytes} {T T' : SigType} (h : TypeText t T) (h' : TypeText t T') :
    T = T' := by
  obtain ⟨c, n, U, rfl, hc, rfl⟩ := h
  obtain ⟨c', n', U', heq, hc', rfl⟩ := h'
  have hstars : ∀ n, Bounded (List.replicate n 42) := by
    intro n x hx
    obtain rfl := List.eq_of_mem_replicate (List.mem_of_mem_head? hx)
    decide
  obtain rfl : c = c' := by
    rw [← takeWhile_code (codeType_alnum hc) (hstars n), heq,
      takeWhile_code (codeType_alnum hc') (hstars n')]
  obtain rfl : n = n' := by
    have hlen := congrArg List.length (List.append_cancel_left heq)
    rwa [List.length_replicate, List.length_replicate] at hlen
  rw [hc] at hc'
  rw [Option.some.inj hc']

/-- Where a type text ends is fixed by the character behind it. -/
theorem split_unique {t t' r r' : Bytes} {x x' : UInt8} (ht : ∀ y ∈ t, isalnum y ∨ y = 42)
    (ht' : ∀ y ∈ t', isalnum y ∨ y = 42) (hx : ¬ (isalnum x ∨ x = 42)) (hx' : ¬ (isalnum x' ∨ x' = 42))
    (h : t ++ x :: r = t' ++ x' :: r') : t = t' ∧ x = x' ∧ r = r' := by
  induction t generalizing t' with
  | nil =>
    cases t' with
    | nil => exact ⟨rfl, List.cons.inj h⟩
    | cons y t' =>
      obtain ⟨rfl, -⟩ := List.cons.inj h
      exact absurd (ht' x List.mem_cons_self) hx
  | cons y t ih =>
    cases t' with
    | nil =>
      obtain ⟨rfl, -⟩ := List.cons.inj h
      exact absurd (ht y List.mem_cons_self) hx'
    | cons y' t' =>
      obtain ⟨rfl, htail⟩ := List.cons.inj h
      obtain ⟨rfl, hrest⟩ := ih (fun z hz => ht z (List.mem_cons_of_mem _ hz))
        (fun z hz => ht' z (List.mem_cons_of_mem _ hz)) htail
      exact ⟨rfl, hrest⟩

/-- A parameter list is read in one way. -/
theorem listText_unique {p rest rest' : Bytes} {Ts Ts' : List SigType} (h : ListText p Ts rest)
    (h' : ListText p Ts' rest') : Ts = Ts' ∧ rest = rest' := by
  generalize hp : p = q at h'
  induction h generalizing q Ts' with
  | last hT =>
    cases h' with
    | last hT' =>
      obtain ⟨rfl, -, rfl⟩ := split_unique (typeText_chars hT) (typeText_chars hT') (by decide)
        (by decide) hp
      exact ⟨by rw [typeText_unique hT hT'], rfl⟩
    | more hT' _ =>
      obtain ⟨-, hx, -⟩ := split_unique (typeText_chars hT) (typeText_chars hT') (by decide)
        (by decide) hp
      exact absurd hx (by decide)
  | more hT _ ih =>
    cases h' with
    | last hT' =>
      obtain ⟨-, hx, -⟩ := split_unique (typeText_chars hT) (typeText_chars hT') (by decide)
        (by decide) hp
      exact absurd hx (by decide)
    | more hT' hlist' =>
      obtain ⟨rfl, -, rfl⟩ := split_unique (typeText_chars hT) (typeText_chars hT') (by decide)
        (by decide) hp
      obtain ⟨rfl, hrest⟩ := ih _ rfl hlist'
      exact ⟨by rw [typeText_unique hT hT'], hrest⟩

/-- A list starts with a letter or a digit. -/
theorem listText_head {p rest : Bytes} {Ts : List SigType} (h : ListText p Ts rest) :
    ¬ Bounded p := by
  have hhead : ∀ {t q : Bytes} {T : SigType}, TypeText t T → ¬ Bounded (t ++ q) := by
    rintro t q T ⟨c, n, U, rfl, hc, -⟩ hbound
    cases c with
    | nil =>
      have hnone : codeType [] = none := by decide
      rw [hnone] at hc
      cases hc
    | cons x c => exact hbound x rfl (codeType_alnum hc x List.mem_cons_self)
  cases h with
  | last hT => exact hhead hT
  | more hT _ => exact hhead hT

theorem listText_not_close {rest rest' : Bytes} {Ts : List SigType} :
    ¬ ListText (41 :: rest') Ts rest := by
  intro h
  refine listText_head h fun x hx => ?_
  obtain rfl := Option.some.inj hx
  decide

theorem paramText_unique {p rest rest' : Bytes} {Ts Ts' : List SigType} (h : ParamText p Ts rest)
    (h' : ParamText p Ts' rest') : Ts = Ts' ∧ rest = rest' := by
  rcases h with ⟨rfl, rfl⟩ | h
  · rcases h' with ⟨hp, rfl⟩ | h'
    · exact ⟨rfl, (List.cons.inj hp).2⟩
    · exact absurd h' listText_not_close
  · rcases h' with ⟨rfl, -⟩ | h'
    · exact absurd h listText_not_close
    · exact listText_unique h h'

/-! ## What the parser reads -/

section Parser

variable (mem : Nat → Nat → Slot)

/-- At `p` stands a pointer type: the code `p`, or a code with a star behind it. -/
def AtPointer (p : Bytes) : Prop :=
  p.takeWhile isalnum = ascii ['p'] ∨
    typeCode (p.takeWhile isalnum) ≠ none ∧ (p.dropWhile isalnum).head? = some 42

/-- `x` stops, but not by a write behind the parameters. -/
def Stops {α : Type} (x : Comp α) (s : CUPState) : Prop :=
  ∃ e s', x s = .stop e s' ∧ e ≠ argsOverflow

theorem stops_bind {α β : Type} {x : Comp α} {f : α → Comp β} {s : CUPState} (h : Stops x s) :
    Stops (x >>= f) s := by
  obtain ⟨e, s', hx, he⟩ := h
  exact ⟨e, s', Run.bind_of_stop hx, he⟩

theorem stops_header (slots : List Slot) (s : CUPState) :
    Stops (cupType mem .typePointer 8 (.slots slots)) s := by
  rcases cupType_header mem slots s with h | h
  · exact ⟨_, _, h, by decide⟩
  · exact ⟨_, _, h, by decide⟩

/-- A pointer type is not built. -/
theorem parseOneType_pointer {p : Bytes} (h : AtPointer p) (s : CUPState) :
    Stops (parseOneType mem p) s := by
  unfold parseOneType
  dsimp only
  by_cases hp : p.takeWhile isalnum = ascii ['p']
  · rw [if_pos hp]
    exact stops_bind (stops_header mem _ s)
  · rw [if_neg hp]
    obtain ⟨hcode, hstar⟩ := h.resolve_left hp
    cases hk : typeCode (p.takeWhile isalnum) with
    | none => exact absurd hk hcode
    | some k =>
      obtain ⟨q, hq⟩ := List.head?_eq_some_iff.mp hstar
      dsimp only
      rw [hq]
      refine stops_bind ?_
      unfold pointerStars
      rw [if_pos rfl]
      exact stops_bind (stops_header mem _ s)

/-- Any other type is looked up by its code. -/
theorem parseOneType_plain {p : Bytes} (h : ¬ AtPointer p) (s : CUPState) :
    parseOneType mem p s =
      .ok ((typeCode (p.takeWhile isalnum)).map .base, p.dropWhile isalnum) s := by
  unfold parseOneType
  dsimp only
  rw [if_neg fun hp => h (.inl hp)]
  cases hk : typeCode (p.takeWhile isalnum) with
  | none => rfl
  | some k =>
    have hstar : (p.dropWhile isalnum).head? ≠ some 42 := by
      intro hstar
      exact h (.inr ⟨by rw [hk]; simp, hstar⟩)
    have hloop : pointerStars mem (p.dropWhile isalnum) (.base k) s =
        .ok (.base k, p.dropWhile isalnum) s := by
      cases hq : p.dropWhile isalnum with
      | nil => rfl
      | cons c q =>
        unfold pointerStars
        rw [if_neg]
        · rfl
        · rintro rfl
          exact hstar (by rw [hq]; rfl)
    dsimp only
    rw [Run.bind_of_ok hloop]
    rfl

theorem not_atPointer {c q : Bytes} (hc : PlainCode c) (hq : Bounded q) (hstar : q.head? ≠ some 42) :
    ¬ AtPointer (c ++ q) := by
  rintro (hp | ⟨-, h⟩)
  · rw [takeWhile_code hc.1 hq] at hp
    exact hc.2 hp
  · rw [dropWhile_code hc.1 hq] at h
    exact hstar h

/-- The slot of a parameter without pointers. -/
def baseSlot (k : CupKind) : Slot := .type (.base k)

theorem peekChar_eq {q : Bytes} {c : UInt8} (hc : c ≠ 0) : peekChar q = c ↔ q.head? = some c := by
  cases q with
  | nil => exact ⟨fun h => absurd h.symm hc, fun h => by cases h⟩
  | cons d q => exact ⟨fun h => congrArg some h, fun h => Option.some.inj h⟩

/-- The parameter loop returns on a list without pointers, of at most `n` parameters. -/
theorem parseArgs_list {p rest : Bytes} {ks : List CupKind} (h : ListText p (ks.map .base) rest)
    {n : Nat} (hn : ks.length ≤ n) (args : List Slot) (s : CUPState) :
    parseArgs mem n p args s = .ok (args ++ ks.map baseSlot) s := by
  induction ks generalizing p n args with
  | nil => cases h
  | cons k ks ih =>
    obtain ⟨n, rfl⟩ : ∃ m, n = m + 1 := ⟨n - 1, by rw [List.length_cons] at hn; omega⟩
    have hread : ∀ {t r : Bytes} {x : UInt8}, TypeText t (.base k) → ¬ isalnum x → x ≠ 42 →
        parseOneType mem (t ++ x :: r) s = .ok (some (.base k), x :: r) s := by
      intro t r x ht hal h42
      have hcode := typeText_base.mp ht
      have hplain := plainCode_of_some (c := t) (by rw [hcode]; simp)
      have hbound : Bounded (x :: r) := by
        intro y hy
        rw [← Option.some.inj hy]
        exact hal
      rw [parseOneType_plain mem (not_atPointer hplain hbound fun h => h42 (Option.some.inj h)),
        takeWhile_code hplain.1 hbound, dropWhile_code hplain.1 hbound, hcode]
      rfl
    unfold parseArgs
    generalize hTs : (k :: ks).map SigType.base = Ts at h
    cases h with
    | last hT =>
      obtain ⟨rfl, hnil⟩ := List.cons.inj hTs
      obtain rfl := List.map_eq_nil_iff.mp hnil
      rw [Run.bind_of_ok (hread hT (by decide) (by decide))]
      rfl
    | more hT hlist =>
      obtain ⟨rfl, rfl⟩ := List.cons.inj hTs
      rw [Run.bind_of_ok (hread hT (by decide) (by decide))]
      have hloop := ih hlist (n := n) (Nat.le_of_succ_le_succ hn) (args ++ [baseSlot k])
      rw [List.append_assoc] at hloop
      exact hloop

/-- It does not return on any other text. -/
theorem parseArgs_cases (n : Nat) (p : Bytes) (args : List Slot) (s : CUPState) :
    Stops (parseArgs mem n p args) s ∨
      ∃ (ks : List CupKind) (rest : Bytes), ListText p (ks.map .base) rest ∧ ks.length ≤ n := by
  induction n generalizing p args with
  | zero => exact .inl ⟨_, _, rfl, by decide⟩
  | succ n ih =>
    unfold parseArgs
    by_cases hptr : AtPointer p
    · exact .inl (stops_bind (parseOneType_pointer mem hptr s))
    have hp : p = p.takeWhile isalnum ++ p.dropWhile isalnum :=
      List.takeWhile_append_dropWhile.symm
    cases hk : typeCode (p.takeWhile isalnum) with
    | none =>
      have hone := parseOneType_plain mem hptr s
      rw [hk] at hone
      refine .inl ⟨.exit 1, s, ?_, by decide⟩
      rw [Run.bind_of_ok hone]
      rfl
    | some k =>
      have hone := parseOneType_plain mem hptr s
      rw [hk] at hone
      have htext := typeText_base.mpr hk
      unfold Stops
      rw [Run.bind_of_ok hone]
      dsimp only [Option.map_some]
      by_cases hcomma : peekChar (p.dropWhile isalnum) = 44
      · obtain ⟨q, hq⟩ := List.head?_eq_some_iff.mp ((peekChar_eq (by decide)).mp hcomma)
        rw [if_pos hcomma]
        rcases ih ((p.dropWhile isalnum).drop 1) (args ++ [.type (.base k)]) with h | ⟨ks, rest, hlist, hle⟩
        · exact .inl h
        · refine .inr ⟨k :: ks, rest, ?_, Nat.succ_le_succ hle⟩
          rw [hq] at hp hlist
          rw [hp]
          exact .more htext hlist
      · rw [if_neg hcomma]
        by_cases hclose : peekChar (p.dropWhile isalnum) = 41
        · obtain ⟨q, hq⟩ := List.head?_eq_some_iff.mp ((peekChar_eq (by decide)).mp hclose)
          refine .inr ⟨[k], q, ?_, Nat.succ_le_succ (Nat.zero_le n)⟩
          rw [hq] at hp
          rw [hp]
          exact .last htext
        · -- the loop goes on at a character that starts no type
          rw [if_neg hclose]
          rcases ih (p.dropWhile isalnum) (args ++ [.type (.base k)]) with h | ⟨ks, rest, hlist, hle⟩
          · exact .inl h
          · exact absurd (bounded_dropWhile p) (listText_head hlist)

/-- A plain code, known or not, a bracket, and parameters without pointers. -/
def Listed (sig : Bytes) (ret : Option CupKind) (ks : List CupKind) (rest : Bytes) : Prop :=
  ∃ c p, sig = c ++ 40 :: p ∧ PlainCode c ∧ typeCode c = ret ∧ ParamText p (ks.map .base) rest

/-- The array of the request for the function type. -/
def request (ret : Option CupKind) (ks : List CupKind) : List Slot :=
  let slots := signatureSlots (ret.map .base) (ks.map baseSlot)
  slots ++ List.replicate (255 - slots.length) .null

/-- An entry of the table is taken for the function type. -/
def TableAnswers (s : CUPState) (ret : Option CupKind) (ks : List CupKind) (t : TRef) : Prop :=
  cupTypeGet s.types .typeFunction (ks.length + 1) (.slots (request ret ks)) = .ok (some t)

theorem signatureSlots_length (ret : Option TRef) (args : List Slot) :
    (signatureSlots ret args).length = args.length + 2 := by
  simp [signatureSlots]

theorem typeCode_isBase {c : Bytes} {k : CupKind} (h : typeCode c = some k) : k.isBase :=
  typeCode_base c k h

/-- Every parameter of a list is a base type. -/
theorem listText_isBase {p rest : Bytes} {ks : List CupKind} (h : ListText p (ks.map .base) rest) :
    ∀ k ∈ ks, k.isBase := by
  induction ks generalizing p with
  | nil => cases h
  | cons k ks ih =>
    generalize hTs : (k :: ks).map SigType.base = Ts at h
    cases h with
    | last hT =>
      obtain ⟨rfl, hnil⟩ := List.cons.inj hTs
      obtain rfl := List.map_eq_nil_iff.mp hnil
      intro j hj
      obtain rfl := List.mem_singleton.mp hj
      exact typeCode_isBase (typeText_base.mp hT)
    | more hT hlist =>
      obtain ⟨rfl, rfl⟩ := List.cons.inj hTs
      intro j hj
      rcases List.mem_cons.mp hj with rfl | hj
      · exact typeCode_isBase (typeText_base.mp hT)
      · exact ih hlist j hj

theorem listed_isBase {sig rest : Bytes} {ret : Option CupKind} {ks : List CupKind}
    (h : Listed sig ret ks rest) : ∀ k ∈ ks, k.isBase := by
  obtain ⟨c, p, -, -, -, ⟨-, hnil⟩ | hlist⟩ := h
  · obtain rfl := List.map_eq_nil_iff.mp hnil
    intro k hk
    cases hk
  · exact listText_isBase hlist

/-- The request counts the sentinel as a parameter: it is answered from the table, or fails. -/
theorem cupType_request {ret : Option CupKind} {ks : List CupKind} (hlen : ks.length < maxParams)
    (hbase : ∀ k ∈ ks, k.isBase) (s : CUPState) :
    (∃ t, TableAnswers s ret ks t ∧
      cupType mem .typeFunction (ks.length + 1) (.slots (request ret ks)) s = .ok t s) ∨
    Stops (cupType mem .typeFunction (ks.length + 1) (.slots (request ret ks))) s := by
  have hsize : ks.length + 1 < 2 ^ 16 := by
    unfold maxParams at hlen
    omega
  rw [cupType_apply, Nat.mod_eq_of_lt hsize]
  unfold Stops
  rw [cupType_apply, Nat.mod_eq_of_lt hsize]
  cases hget : cupTypeGet s.types .typeFunction (ks.length + 1) (.slots (request ret ks)) with
  | error e =>
    refine .inr ⟨e, s, ?_, ?_⟩
    · rw [cupTypeFuel, Run.get_bind, hget, Run.lift_error_bind]
    · rintro rfl
      exact absurd (cupTypeGet_error hget) (by decide)
  | ok r =>
    cases r with
    | some t => exact .inl ⟨t, hget, cupTypeFuel_found hget⟩
    | none =>
      have hwords : dataSlots s.types (.slots (request ret ks)) (ks.length + 1 + 1) =
          .ok (signatureSlots (ret.map .base) (ks.map baseSlot)) := by
        have hslots := signatureSlots_length (ret.map .base) (ks.map baseSlot)
        rw [List.length_map] at hslots
        have htake : (request ret ks).take (ks.length + 1 + 1) =
            signatureSlots (ret.map .base) (ks.map baseSlot) := by
          rw [request, List.take_append_of_le_length (by omega)]
          exact List.take_of_length_le (by omega)
        rw [← htake]
        refine if_pos ?_
        rw [request, List.length_append]
        omega
      have hparams : ∀ slot ∈ ks.map baseSlot ++ [.type (.base .typeVoid)], SlotBase slot := by
        intro slot hslot
        rcases List.mem_append.mp hslot with hslot | hslot
        · obtain ⟨k, hk, rfl⟩ := List.mem_map.mp hslot
          exact .inr ⟨k, rfl, hbase k hk⟩
        · exact .inr ⟨.typeVoid, List.mem_singleton.mp hslot, rfl⟩
      have hnew : newtype mem (cupTypeFuel mem (s.types.length + 1)) .typeFunction (ks.length + 1)
          (.slots (request ret ks)) s = .stop (.assertion "it != &cup_type_void") s := by
        unfold newtype
        rw [Run.get_bind]
        dsimp only
        rw [hwords, Run.lift_ok_bind]
        unfold signatureSlots
        dsimp only [List.cons_append]
        rw [Run.bind_of_stop (newtypeArgs_base hparams
          (List.mem_append_right _ List.mem_cons_self) _ _ _)]
      refine .inr ⟨.assertion "it != &cup_type_void", s, ?_, by decide⟩
      rw [cupTypeFuel, Run.get_bind, hget, Run.lift_ok_bind]
      dsimp only
      rw [if_neg (by simp), Run.bind_of_stop hnew]

/-- The parameters of a function, read or not. -/
theorem parseParams_text {p rest : Bytes} {ks : List CupKind} (h : ParamText p (ks.map .base) rest)
    (hn : ks.length ≤ maxParams) (s : CUPState) :
    parseParams mem p s = .ok (ks.map baseSlot) s := by
  unfold parseParams
  rcases h with ⟨rfl, hnil⟩ | hlist
  · obtain rfl := List.map_eq_nil_iff.mp hnil
    exact congrFun (if_neg (not_not_intro rfl)) s
  · have hne : peekChar p ≠ 41 := by
      intro hp
      obtain ⟨q, rfl⟩ := List.head?_eq_some_iff.mp ((peekChar_eq (by decide)).mp hp)
      exact listText_not_close hlist
    rw [if_pos hne]
    exact parseArgs_list mem hlist hn [] s

theorem parseParams_cases (p : Bytes) (s : CUPState) :
    Stops (parseParams mem p) s ∨ ∃ (ks : List CupKind) (rest : Bytes),
      ParamText p (ks.map .base) rest ∧ ks.length ≤ maxParams := by
  unfold parseParams
  by_cases hclose : peekChar p = 41
  · obtain ⟨q, rfl⟩ := List.head?_eq_some_iff.mp ((peekChar_eq (by decide)).mp hclose)
    exact .inr ⟨[], q, .inl ⟨rfl, rfl⟩, Nat.zero_le _⟩
  · rw [if_pos hclose]
    rcases parseArgs_cases mem maxParams p [] s with h | ⟨ks, rest, hlist, hle⟩
    · exact .inl h
    · exact .inr ⟨ks, rest, .inr hlist, hle⟩

/-! ### The whole signature -/

theorem bounded_open (p : Bytes) : Bounded (40 :: p) := by
  intro x hx
  obtain rfl := Option.some.inj hx
  decide

/-- A type code alone is its type. -/
theorem cupTypeParse_code {sig : Bytes} {k : CupKind} (h : typeCode sig = some k) (s : CUPState) :
    cupTypeParse mem sig s = .ok (some (.base k)) s := by
  have hplain := plainCode_of_some (c := sig) (by rw [h]; simp)
  have hbound : Bounded [] := fun x hx => by cases hx
  have hone := parseOneType_plain mem (not_atPointer hplain hbound (by simp)) s
  rw [takeWhile_code hplain.1 hbound, dropWhile_code hplain.1 hbound, List.append_nil, h] at hone
  unfold cupTypeParse
  rw [Run.bind_of_ok hone]
  rfl

/-- A list without pointers is read to its end, and what is behind it is not looked at. -/
theorem cupTypeParse_listed {sig rest : Bytes} {ret : Option CupKind} {ks : List CupKind}
    (h : Listed sig ret ks rest) (hn : ks.length ≤ maxParams) (s : CUPState) :
    cupTypeParse mem sig s =
      (if ks.length = maxParams then noteGap .sentinel >>= fun _ => Run.stop argsOverflow
      else cupType mem .typeFunction (ks.length + 1) (.slots (request ret ks)) >>= fun t =>
        pure (some t)) s := by
  obtain ⟨c, p, rfl, hplain, rfl, hparams⟩ := h
  have hone := parseOneType_plain mem
    (not_atPointer hplain (bounded_open p) (by simp)) s
  rw [takeWhile_code hplain.1 (bounded_open p), dropWhile_code hplain.1 (bounded_open p)] at hone
  have hopen : peekChar (40 :: p) = 40 := rfl
  unfold cupTypeParse
  rw [Run.bind_of_ok hone]
  dsimp only
  rw [if_pos hopen, List.drop_one, List.tail_cons, Run.bind_of_ok (parseParams_text mem hparams hn s),
    signatureSlots_length, List.length_map]
  by_cases hfull : ks.length = maxParams
  · rw [if_pos hfull, if_pos (by unfold maxParams at hfull; omega)]
  · rw [if_neg hfull, if_neg (by unfold maxParams at hfull hn; omega), request,
      signatureSlots_length, List.length_map]

/-- No other string gets a type. -/
theorem cupTypeParse_cases {sig : Bytes} (h0 : 0 ∉ sig) (s : CUPState) :
    Stops (cupTypeParse mem sig) s ∨ cupTypeParse mem sig s = .ok none s ∨
      typeCode sig ≠ none ∨ ∃ ret ks rest, Listed sig ret ks rest ∧ ks.length ≤ maxParams := by
  have hsig : sig = sig.takeWhile isalnum ++ sig.dropWhile isalnum :=
    List.takeWhile_append_dropWhile.symm
  by_cases hptr : AtPointer sig
  · exact .inl (stops_bind (parseOneType_pointer mem hptr s))
  have hone := parseOneType_plain mem hptr s
  by_cases hopen : peekChar (sig.dropWhile isalnum) = 40
  · obtain ⟨p, hp⟩ := List.head?_eq_some_iff.mp ((peekChar_eq (by decide)).mp hopen)
    rcases parseParams_cases mem p s with hstop | ⟨ks, rest, hparams, hle⟩
    · refine .inl ?_
      obtain ⟨e, s', hs', he⟩ := hstop
      refine ⟨e, s', ?_, he⟩
      unfold cupTypeParse
      rw [Run.bind_of_ok hone]
      dsimp only
      rw [if_pos hopen, hp, List.drop_one, List.tail_cons, Run.bind_of_stop hs']
    · refine .inr (.inr (.inr ⟨_, ks, rest, ⟨sig.takeWhile isalnum, p, ?_, ?_, rfl, hparams⟩, hle⟩))
      · rw [← hp]
        exact hsig
      · exact ⟨fun x hx => List.mem_takeWhile_imp hx, fun hc => hptr (.inl hc)⟩
  · by_cases hend : peekChar (sig.dropWhile isalnum) = 0
    · have hnil : sig.dropWhile isalnum = [] := by
        cases hq : sig.dropWhile isalnum with
        | nil => rfl
        | cons x q =>
          rw [hq] at hend hsig
          obtain rfl : x = 0 := hend
          exact absurd (by rw [hsig]; simp) h0
      rw [hnil, List.append_nil] at hsig
      cases hk : typeCode sig with
      | some k => exact .inr (.inr (.inl (by simp)))
      | none =>
        rw [← hsig, hk] at hone
        refine .inr (.inl ?_)
        unfold cupTypeParse
        rw [Run.bind_of_ok hone]
        dsimp only
        rw [if_neg hopen, if_pos hend]
        rfl
    · refine .inl ⟨.exit 1, s, ?_, by decide⟩
      unfold cupTypeParse
      rw [Run.bind_of_ok hone]
      dsimp only
      rw [if_neg hopen, if_neg hend]
      rfl

/-- When a type is returned. -/
theorem cupTypeParse_eq_ok {sig : Bytes} (h0 : 0 ∉ sig) {s s' : CUPState} {t : TRef}
    (h : cupTypeParse mem sig s = .ok (some t) s') :
    (∃ k, typeCode sig = some k ∧ t = .base k) ∨ ∃ ret ks rest, Listed sig ret ks rest ∧
      ks.length < maxParams ∧ TableAnswers s ret ks t ∧ s' = s := by
  rcases cupTypeParse_cases mem h0 s with ⟨e, s₁, hstop, -⟩ | hnone | hcode |
    ⟨ret, ks, rest, hlisted, hle⟩
  · rw [hstop] at h
    cases h
  · rw [hnone] at h
    cases h
  · obtain ⟨k, hk⟩ := Option.ne_none_iff_exists'.mp hcode
    rw [cupTypeParse_code mem hk] at h
    cases h
    exact .inl ⟨k, hk, rfl⟩
  · rw [cupTypeParse_listed mem hlisted hle] at h
    by_cases hfull : ks.length = maxParams
    · rw [if_pos hfull] at h
      cases h
    · rw [if_neg hfull] at h
      have hlt : ks.length < maxParams := Nat.lt_of_le_of_ne hle hfull
      rcases cupType_request mem hlt (listed_isBase hlisted) s with ⟨t', hans, hrun⟩ | hstop
      · rw [Run.bind_of_ok hrun] at h
        cases h
        exact .inr ⟨ret, ks, rest, hlisted, hlt, hans, rfl⟩
      · obtain ⟨e, s₁, hs₁, -⟩ := hstop
        rw [Run.bind_of_stop hs₁] at h
        cases h

/-- When the sentinel is written behind the array of parameters. -/
theorem cupTypeParse_eq_overflow {sig : Bytes} (h0 : 0 ∉ sig) {s s' : CUPState}
    (h : cupTypeParse mem sig s = .stop argsOverflow s') :
    ∃ ret ks rest, Listed sig ret ks rest ∧ ks.length = maxParams := by
  have hnot {α : Type} {x : Comp α} (hx : Stops x s) : x s ≠ .stop argsOverflow s' := by
    obtain ⟨e, s₁, hs₁, he⟩ := hx
    intro hx
    rw [hs₁] at hx
    cases hx
    exact he rfl
  rcases cupTypeParse_cases mem h0 s with hstop | hnone | hcode |
    ⟨ret, ks, rest, hlisted, hle⟩
  · exact absurd h (hnot hstop)
  · rw [hnone] at h
    cases h
  · obtain ⟨k, hk⟩ := Option.ne_none_iff_exists'.mp hcode
    rw [cupTypeParse_code mem hk] at h
    cases h
  · by_cases hfull : ks.length = maxParams
    · exact ⟨ret, ks, rest, hlisted, hfull⟩
    · have hlt : ks.length < maxParams := Nat.lt_of_le_of_ne hle hfull
      rw [cupTypeParse_listed mem hlisted hle, if_neg hfull] at h
      rcases cupType_request mem hlt (listed_isBase hlisted) s with ⟨t', hans, hrun⟩ | hstop
      · rw [Run.bind_of_ok hrun] at h
        cases h
      · exact absurd h (hnot (stops_bind hstop))

/-! ## The parser and the language -/

/-- The return type of a list, and its parameters, are read in one way. -/
theorem listed_unique {sig rest rest' : Bytes} {ret ret' : Option CupKind} {ks ks' : List CupKind}
    (h : Listed sig ret ks rest) (h' : Listed sig ret' ks' rest') :
    ret = ret' ∧ ks = ks' ∧ rest = rest' := by
  obtain ⟨c, p, rfl, hplain, rfl, hparams⟩ := h
  obtain ⟨c', p', hsig, hplain', rfl, hparams'⟩ := h'
  have hc : ∀ x ∈ c, isalnum x ∨ x = 42 := fun x hx => .inl (hplain.1 x hx)
  have hc' : ∀ x ∈ c', isalnum x ∨ x = 42 := fun x hx => .inl (hplain'.1 x hx)
  obtain ⟨rfl, -, rfl⟩ := split_unique hc hc' (by decide) (by decide) hsig
  obtain ⟨hks, rfl⟩ := paramText_unique hparams hparams'
  have hinj : Function.Injective SigType.base := fun _ _ h => SigType.base.inj h
  exact ⟨rfl, List.map_injective_iff.mpr hinj hks, rfl⟩

/-- A signature starts with its return type and ends at its bracket; a single type has none. -/
theorem sigText_listed {sig rest : Bytes} {S : Sig} {ret : Option CupKind} {ks : List CupKind}
    (h : SigText sig S) (hl : Listed sig ret ks rest) :
    rest = [] ∧ ∃ T, S = .func T (ks.map .base) := by
  obtain ⟨c, p, rfl, hplain, -, hparams⟩ := hl
  have hc : ∀ x ∈ c, isalnum x ∨ x = 42 := fun x hx => .inl (hplain.1 x hx)
  generalize hsig : c ++ 40 :: p = sig at h
  cases h with
  | type hT =>
    have h40 : (40 : UInt8) ∈ c ++ 40 :: p := by simp
    rw [hsig] at h40
    exact absurd (typeText_chars hT 40 h40) (by decide)
  | func hT hparams' _ _ =>
    obtain ⟨-, -, rfl⟩ := split_unique hc (typeText_chars hT) (by decide) (by decide) hsig
    obtain ⟨rfl, rfl⟩ := paramText_unique hparams hparams'
    exact ⟨rfl, _, rfl⟩

theorem sigText_code {sig : Bytes} {S : Sig} {k : CupKind} (hk : typeCode sig = some k)
    (h : SigText sig S) : S = .type (.base k) := by
  have hal := typeCode_alnum (c := sig) (by rw [hk]; simp)
  cases h with
  | type hT => rw [typeText_unique hT (typeText_base.mpr hk)]
  | func _ _ _ _ => exact absurd (hal 40 (by simp)) (by decide)

/-- An entry that is taken for the type of a function counts one parameter more than the text. -/
theorem not_isSig_of_answers {s : CUPState} {t : TRef} {T : SigType} {ret : Option CupKind}
    {ks : List CupKind} (h : TableAnswers s ret ks t) :
    ¬ IsSig s.types t (.func T (ks.map .base)) := by
  rintro ⟨ty, r, args, hty, -, hsize, -⟩
  obtain ⟨i, ptr, rfl, hp, -, hptr⟩ := cupTypeGetEx_found h
  rw [typeAt, Nat.zero_add, hp] at hty
  rw [← Option.some.inj hty, hptr, List.length_map] at hsize
  omega

/-- The parser returns a type exactly for a signature, the type it describes, and never writes
    behind its array of parameters. -/
def MeetsSignature (mem : Nat → Nat → Slot) (sig : Bytes) (s : CUPState) : Prop :=
  (∀ S, SigText sig S → ∃ t s', cupTypeParse mem sig s = .ok (some t) s' ∧ IsSig s'.types t S) ∧
  (∀ t s', cupTypeParse mem sig s = .ok (some t) s' → ∃ S, SigText sig S ∧ IsSig s'.types t S) ∧
  ∀ s', cupTypeParse mem sig s ≠ .stop argsOverflow s'

/-- Of the signatures the parser gets a single code right, and nothing else. A string that is
    none it treats right unless it lists 254 parameters, or an entry of the table is taken for
    the function type. -/
theorem meetsSignature_iff {sig : Bytes} (h0 : 0 ∉ sig) (s : CUPState) :
    MeetsSignature mem sig s ↔ typeCode sig ≠ none ∨
      (∀ S, ¬ SigText sig S) ∧ ∀ ret ks rest, Listed sig ret ks rest →
        ks.length ≠ maxParams ∧ (ks.length < maxParams → ∀ t, ¬ TableAnswers s ret ks t) := by
  constructor
  · rintro ⟨haccept, hsound, hbounds⟩
    by_cases hk : typeCode sig = none
    · refine .inr ⟨fun S hS => ?_, fun ret ks rest hl => ⟨fun hfull => ?_, fun hlt t hans => ?_⟩⟩
      · obtain ⟨t, s', hrun, his⟩ := haccept S hS
        rcases cupTypeParse_eq_ok mem h0 hrun with ⟨k, hk', -⟩ | ⟨ret, ks, rest, hl, hlt, hans, rfl⟩
        · rw [hk] at hk'
          cases hk'
        · -- the entry counts one parameter more than the text
          obtain ⟨-, T, rfl⟩ := sigText_listed hS hl
          obtain ⟨ty, r, args, hty, -, hsize, -⟩ := his
          have hfound : cupTypeFuel mem 1 .typeFunction (ks.length + 1)
              (.slots (request ret ks)) s' = .ok t s' := cupTypeFuel_found hans
          obtain ⟨ty', hty', -, hsize'⟩ := cupTypeFuel_entry rfl hfound
          rw [hty] at hty'
          obtain rfl := Option.some.inj hty'
          rw [hsize', List.length_map] at hsize
          omega
      · have hrun := cupTypeParse_listed mem hl (Nat.le_of_eq hfull) s
        rw [if_pos hfull] at hrun
        exact hbounds _ hrun
      · have hrun := cupTypeParse_listed mem hl (Nat.le_of_lt hlt) s
        have hfound : cupType mem .typeFunction (ks.length + 1) (.slots (request ret ks)) s =
            .ok t s := by
          rw [cupType_apply, Nat.mod_eq_of_lt (by unfold maxParams at hlt; omega)]
          exact cupTypeFuel_found hans
        rw [if_neg (Nat.ne_of_lt hlt), Run.bind_of_ok hfound] at hrun
        obtain ⟨S, hS, his⟩ := hsound t s hrun
        obtain ⟨-, T, rfl⟩ := sigText_listed hS hl
        exact not_isSig_of_answers hans his
    · exact .inl hk
  · rintro (hcode | ⟨hnone, hl⟩)
    · obtain ⟨k, hk⟩ := Option.ne_none_iff_exists'.mp hcode
      have hrun := cupTypeParse_code mem hk s
      refine ⟨fun S hS => ?_, fun t s' h => ?_, fun s' h => ?_⟩
      · obtain rfl := sigText_code hk hS
        exact ⟨.base k, s, hrun, rfl⟩
      · rw [hrun] at h
        cases h
        exact ⟨.type (.base k), .type (typeText_base.mpr hk), rfl⟩
      · rw [hrun] at h
        cases h
    · refine ⟨fun S hS => absurd hS (hnone S), fun t s' h => ?_, fun s' h => ?_⟩
      · rcases cupTypeParse_eq_ok mem h0 h with ⟨k, hk, -⟩ | ⟨ret, ks, rest, hlisted, hlt, hans, -⟩
        · exact absurd (.type (typeText_base.mpr hk)) (hnone (.type (.base k)))
        · exact absurd hans ((hl ret ks rest hlisted).2 hlt t)
      · obtain ⟨ret, ks, rest, hlisted, hfull⟩ := cupTypeParse_eq_overflow mem h0 h
        exact (hl ret ks rest hlisted).1 hfull

/-- The state of a table with the function type of two parameters `i` and `f`. -/
def tableState : CUPState :=
  { newState with
    types := newState.types ++ [⟨.typeFunction, 0, 2, .func (.type (.base .typeInt))
      [.type (.base .typeInt), .type (.base .typeFloat), .type (.base .typeVoid)]⟩] }

/-- The text `i(i)x` lists one parameter, with text behind the bracket. -/
theorem listed_text : Listed (ascii ['i', '(', 'i', ')', 'x']) (some .typeInt) [.typeInt]
    (ascii ['x']) := by
  have hint : TypeText (ascii ['i']) (.base .typeInt) := typeText_base.mpr rfl
  have hlist : ListText (ascii ['i', ')', 'x']) [.base .typeInt] (ascii ['x']) := .last hint
  exact ⟨ascii ['i'], ascii ['i', ')', 'x'], rfl,
    plainCode_of_some (Option.some_ne_none _), rfl, .inr hlist⟩

/-- The text `i(i)x` is no signature, and the function of the table is not taken for it; the code
    `i` is a signature. -/
theorem meetsSignature_iff_text :
    MeetsSignature bareHost.mem (ascii ['i', '(', 'i', ')', 'x']) tableState ∧
      MeetsSignature bareHost.mem (ascii ['i']) tableState := by
  refine ⟨(meetsSignature_iff _ (by decide) _).mpr (.inr ⟨fun S hS => ?_, fun ret ks rest hl => ?_⟩),
    (meetsSignature_iff _ (by decide) _).mpr (.inl (Option.some_ne_none _))⟩
  · obtain ⟨hrest, -⟩ := sigText_listed hS listed_text
    cases hrest
  · obtain ⟨rfl, rfl, -⟩ := listed_unique listed_text hl
    refine ⟨by decide, fun _ t hans => ?_⟩
    have hget : cupTypeGet tableState.types .typeFunction 2
        (.slots (request (some .typeInt) [.typeInt])) = .ok none := by decide +kernel
    unfold TableAnswers at hans
    rw [List.length_singleton, hget] at hans
    cases hans

/-- The function `i(i)` is a signature, and the parser fails an assertion on it. -/
theorem not_meetsSignature_function :
    SigText (ascii ['i', '(', 'i', ')']) (.func (.base .typeInt) [.base .typeInt]) ∧
    ¬ MeetsSignature bareHost.mem (ascii ['i', '(', 'i', ')']) newState := by
  have hint : TypeText (ascii ['i']) (.base .typeInt) := typeText_base.mpr rfl
  have htext : SigText (ascii ['i', '(', 'i', ')']) (.func (.base .typeInt) [.base .typeInt]) :=
    .func hint (.inr (.last hint)) (by decide) (by decide)
  refine ⟨htext, fun h => ?_⟩
  obtain ⟨t, s', hrun, -⟩ := h.1 _ htext
  have hstop : cupTypeParse bareHost.mem (ascii ['i', '(', 'i', ')']) newState =
      .stop (.assertion "it != &cup_type_void") newState := by decide +kernel
  rw [hstop] at hrun
  cases hrun

end Parser

end Cup
