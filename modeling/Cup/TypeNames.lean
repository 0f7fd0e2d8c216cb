/-
  The names of types (`cup_type_snname` of `src/types.c`).

  The buffer `s` is a part of the memory, from `base` on; a copy that leaves the memory gives no
  result. Each append copies one byte more than it counts, and the NUL at the end is written over
  what it left there. `Printed` is what holds between two appends: the bytes counted so far are
  the first of the full name, and nothing outside the buffer has changed. NULL is printed without
  the NUL at the end, so its name has to fit (`printsBounded_iff`).
-/
import Cup.Types
import Cup.Lib.Image

namespace Cup

open Lib.Image (write)

/-- A type with what its pointers reach. `simple` has no payload; `argstype` are the entries in
    front of the sentinel. -/
inductive TypeTree where
  | null
  | simple (k : CupKind)
  | pointer (element : TypeTree)
  | array (element : TypeTree)
  | function (returntype : TypeTree) (argstype : List TypeTree)
  | typeMeta (size : Nat)

/-- `== &cup_type_void`. -/
def TypeTree.isVoid : TypeTree → Bool
  | .simple .typeVoid => true
  | _ => false

/-- The literals of the types without payload. -/
def simpleName : CupKind → Bytes
  | .typeVoid => ascii ['v', 'o', 'i', 'd']
  | .typeInt => ascii ['i', 'n', 't']
  | .typeFloat => ascii ['f', 'l', 'o', 'a', 't']
  | .typeDouble => ascii ['d', 'o', 'u', 'b', 'l', 'e']
  | .typeUint8 => ascii ['u', 'i', 'n', 't', '8']
  | .typeSint8 => ascii ['s', 'i', 'n', 't', '8']
  | .typeUint16 => ascii ['u', 'i', 'n', 't', '1', '6']
  | .typeSint16 => ascii ['s', 'i', 'n', 't', '1', '6']
  | .typeUint32 => ascii ['u', 'i', 'n', 't', '3', '2']
  | .typeSint32 => ascii ['s', 'i', 'n', 't', '3', '2']
  | .typeUint64 => ascii ['u', 'i', 'n', 't', '6', '4']
  | .typeSint64 => ascii ['s', 'i', 'n', 't', '6', '4']
  | .typeCount => ascii ['c', 'o', 'u', 'n', 't']
  | _ => ascii ['u', 'n', 'k', 'n', 'o', 'w', 'n']

/-- `cup_sprintf("%zu", n)`. -/
def decimal (n : Nat) : Bytes := ascii (Nat.toDigits 10 n)

/-! ## The printer -/

/-- `APPEND_LITERAL`, and the same code for a size. The pair is the memory and `total`. -/
def appendLiteral (base maxlen : Nat) (str : Bytes) (r : Bytes × Nat) : Option (Bytes × Nat) :=
  if r.2 < maxlen then
    let copy := if str.length < maxlen - r.2 then str.length else maxlen - r.2 - 1
    -- `str` ends with its NUL
    (write r.1 ⟨base + r.2, (str ++ [0]).take (copy + 1)⟩).map fun s => (s, r.2 + copy)
  else some r

/-- `if (total < maxlen) s[total] = '\0'`. -/
def terminate (base maxlen : Nat) (r : Bytes × Nat) : Option (Bytes × Nat) :=
  if r.2 < maxlen then (write r.1 ⟨base + r.2, [0]⟩).map fun s => (s, r.2) else some r

/-- `if (i) APPEND_LITERAL(", ")`. -/
def appendComma (base maxlen i : Nat) (r : Bytes × Nat) : Option (Bytes × Nat) :=
  if i ≠ 0 then appendLiteral base maxlen (ascii [',', ' ']) r else some r

mutual

/-- `cup_type_snname`. -/
def cupTypeSnname (s : Bytes) (base maxlen : Nat) : TypeTree → Option (Bytes × Nat)
  | .null => appendLiteral base maxlen (ascii ['n', 'u', 'l', 'l']) (s, 0)
  | .simple k => do
    let r ← appendLiteral base maxlen (simpleName k) (s, 0)
    terminate base maxlen r
  | .pointer element => do
    let r ← cupTypeSnname s base maxlen element
    let r ← appendLiteral base maxlen (ascii ['*']) r
    terminate base maxlen r
  | .array element => do
    let r ← cupTypeSnname s base maxlen element
    let r ← appendLiteral base maxlen (ascii ['[', ']']) r
    terminate base maxlen r
  | .function returntype argstype => do
    let r ← cupTypeSnname s base maxlen returntype
    let r ← appendLiteral base maxlen (ascii ['(']) r
    let r ← snnameArgs base maxlen 0 argstype r
    let r ← appendLiteral base maxlen (ascii [')']) r
    terminate base maxlen r
  | .typeMeta size => do
    let r ← appendLiteral base maxlen (ascii ['m', 'e', 't', 'a', ' ', '(', ' ']) (s, 0)
    let r ← appendLiteral base maxlen (decimal size) r
    let r ← appendLiteral base maxlen (ascii [' ', ')']) r
    terminate base maxlen r

/-- The loop over the parameters from `i` on. -/
def snnameArgs (base maxlen : Nat) : Nat → List TypeTree → Bytes × Nat → Option (Bytes × Nat)
  | _, [], r => some r
  | i, t :: ts, r =>
    if t.isVoid then some r
    else do
      let r ← appendComma base maxlen i r
      let r' ← cupTypeSnname r.1 (base + r.2) (maxlen - r.2) t
      snnameArgs base maxlen (i + 1) ts (r'.1, r.2 + r'.2)

end

mutual

/-- The name without a limit. -/
def fullName : TypeTree → Bytes
  | .null => ascii ['n', 'u', 'l', 'l']
  | .simple k => simpleName k
  | .pointer element => fullName element ++ ascii ['*']
  | .array element => fullName element ++ ascii ['[', ']']
  | .function returntype argstype =>
    fullName returntype ++ ascii ['('] ++ fullArgs 0 argstype ++ ascii [')']
  | .typeMeta size => ascii ['m', 'e', 't', 'a', ' ', '(', ' '] ++ decimal size ++ ascii [' ', ')']

/-- The names of the parameters from `i` on. -/
def fullArgs : Nat → List TypeTree → Bytes
  | _, [] => []
  | i, t :: ts =>
    if t.isVoid then []
    else (if i ≠ 0 then ascii [',', ' '] else []) ++ fullName t ++ fullArgs (i + 1) ts

end

/-! ## Between two appends -/

/-- The buffer of `maxlen` bytes between `pre` and `post` starts with `name`, as far as it goes. -/
structure Printed (pre post : Bytes) (maxlen : Nat) (name : Bytes) (r : Bytes × Nat) : Prop where
  count : r.2 = min name.length (maxlen - 1)
  text : ∃ rest, r.1 = pre ++ (name.take r.2 ++ rest) ++ post ∧ r.2 + rest.length = maxlen

/-- Such a buffer, with a NUL behind the name. -/
structure Terminated (pre post : Bytes) (maxlen : Nat) (name : Bytes) (r : Bytes × Nat) : Prop where
  count : r.2 = min name.length (maxlen - 1)
  text : ∃ rest, r.1 = pre ++ (name.take r.2 ++ 0 :: rest) ++ post ∧ r.2 + 1 + rest.length = maxlen

theorem Terminated.printed {pre post name : Bytes} {maxlen : Nat} {r : Bytes × Nat}
    (h : Terminated pre post maxlen name r) : Printed pre post maxlen name r := by
  obtain ⟨rest, htext, hlen⟩ := h.text
  exact ⟨h.count, 0 :: rest, htext, by rw [List.length_cons]; omega⟩

/-- The first bytes of two names in a row, where the second has the room that the first left. -/
theorem take_both {name str : Bytes} {maxlen n k : Nat} (hn : n = min name.length (maxlen - 1))
    (hk : k = min str.length (maxlen - n - 1)) :
    (name ++ str).take (n + k) = name.take n ++ str.take k ∧
      n + k = min (name ++ str).length (maxlen - 1) := by
  rw [List.length_append]
  refine ⟨?_, by omega⟩
  rw [List.take_append]
  by_cases hfull : n = name.length
  · have hname : name.take (n + k) = name.take n := by
      rw [List.take_of_length_le (by omega), hfull, List.take_length]
    have hsub : n + k - name.length = k := by omega
    rw [hname, hsub]
  · have hk0 : k = 0 := by omega
    have hsub : n + 0 - name.length = 0 := by omega
    rw [hk0, hsub, Nat.add_zero]

variable {pre post name dest : Bytes} {maxlen : Nat} {r : Bytes × Nat}

theorem Printed.append (h : Printed pre post maxlen name r) (hmax : 1 ≤ maxlen) (str : Bytes) :
    ∃ r', appendLiteral pre.length maxlen str r = some r' ∧
      Printed pre post maxlen (name ++ str) r' := by
  obtain ⟨hcount, rest, htext, hlen⟩ := h
  obtain ⟨s, total⟩ := r
  dsimp only at hcount htext hlen
  have htotal : (name.take total).length = total := by
    rw [List.length_take]
    omega
  unfold appendLiteral
  dsimp only
  rw [if_pos (by omega)]
  generalize hcopy : (if str.length < maxlen - total then str.length else maxlen - total - 1) = copy
  have hmin : copy = min str.length (maxlen - total - 1) := by
    rw [← hcopy]
    split <;> omega
  have hdata : ((str ++ [0]).take (copy + 1)).length = copy + 1 := by
    rw [List.length_take, List.length_append, List.length_singleton]
    omega
  obtain ⟨htake, hboth⟩ := take_both hcount hmin
  rw [htext, ← List.append_assoc pre, Lib.Image.write_between
    (by rw [List.length_append, htotal]) (by rw [hdata]; omega), hdata]
  refine ⟨_, rfl, hboth, ((str ++ [0]).take (copy + 1)).drop copy ++ rest.drop (copy + 1), ?_, ?_⟩
  · have hfirst : ((str ++ [0]).take (copy + 1)).take copy = str.take copy := by
      rw [List.take_take, Nat.min_eq_left (by omega), List.take_append_of_le_length (by omega)]
    have hsplit : (str ++ [0]).take (copy + 1) =
        str.take copy ++ ((str ++ [0]).take (copy + 1)).drop copy := by
      rw [← hfirst, List.take_append_drop]
    dsimp only
    rw [htake]
    generalize ((str ++ [0]).take (copy + 1)).drop copy = tail at hsplit ⊢
    rw [hsplit]
    simp only [List.append_assoc]
  · dsimp only
    rw [List.length_append, List.length_drop, List.length_drop, hdata]
    omega

theorem Printed.terminate (h : Printed pre post maxlen name r) (hmax : 1 ≤ maxlen) :
    ∃ r', Cup.terminate pre.length maxlen r = some r' ∧ Terminated pre post maxlen name r' := by
  obtain ⟨hcount, rest, htext, hlen⟩ := h
  have htotal : (name.take r.2).length = r.2 := by
    rw [List.length_take]
    omega
  unfold Cup.terminate
  rw [if_pos (by omega), htext, ← List.append_assoc pre, Lib.Image.write_between
    (by rw [List.length_append, htotal]) (by rw [List.length_singleton]; omega)]
  refine ⟨_, rfl, hcount, rest.drop 1, ?_, ?_⟩
  · dsimp only
    simp only [List.append_assoc, List.length_singleton, List.singleton_append]
  · dsimp only
    rw [List.length_drop]
    omega

theorem printed_start (pre dest post : Bytes) :
    Printed pre post dest.length [] (pre ++ dest ++ post, 0) :=
  ⟨by rw [List.length_nil, Nat.zero_min], dest, by rw [List.take_nil, List.nil_append],
    Nat.zero_add _⟩

theorem Printed.comma (h : Printed pre post maxlen name r) (hmax : 1 ≤ maxlen) (i : Nat) :
    ∃ r', appendComma pre.length maxlen i r = some r' ∧
      Printed pre post maxlen (name ++ if i ≠ 0 then ascii [',', ' '] else []) r' := by
  unfold appendComma
  by_cases hi : i ≠ 0
  · rw [if_pos hi, if_pos hi]
    exact h.append hmax _
  · rw [if_neg hi, if_neg hi, List.append_nil]
    exact ⟨r, rfl, h⟩

/-- What is printed behind a part of the name, in the room that it left. -/
theorem Printed.nested {t : TypeTree} (h : Printed pre post maxlen name r) (hmax : 1 ≤ maxlen)
    (ht : ∀ pre dest post : Bytes, dest ≠ [] → ∃ r',
      cupTypeSnname (pre ++ dest ++ post) pre.length dest.length t = some r' ∧
        Printed pre post dest.length (fullName t) r') :
    ∃ r', cupTypeSnname r.1 (pre.length + r.2) (maxlen - r.2) t = some r' ∧
      Printed pre post maxlen (name ++ fullName t) (r'.1, r.2 + r'.2) := by
  obtain ⟨hcount, rest, htext, hlen⟩ := h
  have htotal : (name.take r.2).length = r.2 := by
    rw [List.length_take]
    omega
  have hbase : (pre ++ name.take r.2).length = pre.length + r.2 := by
    rw [List.length_append, htotal]
  have hroom : rest.length = maxlen - r.2 := by omega
  obtain ⟨r', hr', hcount', rest', htext', hlen'⟩ := ht (pre ++ name.take r.2) rest post
    (List.length_pos_iff.mp (by omega))
  rw [hbase, hroom] at hr'
  rw [hroom] at hcount' hlen'
  obtain ⟨htake, hboth⟩ := take_both hcount hcount'
  refine ⟨r', ?_, hboth, rest', ?_, ?_⟩
  · rw [← hr', htext]
    simp only [List.append_assoc]
  · dsimp only
    rw [htext', htake]
    simp only [List.append_assoc]
  · dsimp only
    omega

/-! ## The printer keeps to the buffer -/

mutual

/-- NULL is printed as far as it goes; the name of any other type ends with a NUL. -/
theorem snname_printed : ∀ (t : TypeTree) (pre dest post : Bytes), dest ≠ [] →
    ∃ r, cupTypeSnname (pre ++ dest ++ post) pre.length dest.length t = some r ∧
      Printed pre post dest.length (fullName t) r ∧
      (t ≠ .null → Terminated pre post dest.length (fullName t) r)
  | .null, pre, dest, post, hne => by
    have hmax := List.length_pos_iff.mpr hne
    obtain ⟨r, hr, h⟩ := (printed_start pre dest post).append hmax (ascii ['n', 'u', 'l', 'l'])
    exact ⟨r, hr, h, fun hnull => absurd rfl hnull⟩
  | .simple k, pre, dest, post, hne => by
    have hmax := List.length_pos_iff.mpr hne
    obtain ⟨r₁, h₁, hp₁⟩ := (printed_start pre dest post).append hmax (simpleName k)
    obtain ⟨r, hr, h⟩ := hp₁.terminate hmax
    refine ⟨r, ?_, h.printed, fun _ => h⟩
    rw [cupTypeSnname, h₁]
    exact hr
  | .pointer element, pre, dest, post, hne => by
    have hmax := List.length_pos_iff.mpr hne
    obtain ⟨r₁, h₁, hp₁, -⟩ := snname_printed element pre dest post hne
    obtain ⟨r₂, h₂, hp₂⟩ := hp₁.append hmax (ascii ['*'])
    obtain ⟨r, hr, h⟩ := hp₂.terminate hmax
    refine ⟨r, ?_, h.printed, fun _ => h⟩
    rw [cupTypeSnname, h₁, Option.bind_eq_bind, Option.bind_some, h₂]
    exact hr
  | .array element, pre, dest, post, hne => by
    have hmax := List.length_pos_iff.mpr hne
    obtain ⟨r₁, h₁, hp₁, -⟩ := snname_printed element pre dest post hne
    obtain ⟨r₂, h₂, hp₂⟩ := hp₁.append hmax (ascii ['[', ']'])
    obtain ⟨r, hr, h⟩ := hp₂.terminate hmax
    refine ⟨r, ?_, h.printed, fun _ => h⟩
    rw [cupTypeSnname, h₁, Option.bind_eq_bind, Option.bind_some, h₂]
    exact hr
  | .function returntype argstype, pre, dest, post, hne => by
    have hmax := List.length_pos_iff.mpr hne
    obtain ⟨r₁, h₁, hp₁, -⟩ := snname_printed returntype pre dest post hne
    obtain ⟨r₂, h₂, hp₂⟩ := hp₁.append hmax (ascii ['('])
    obtain ⟨r₃, h₃, hp₃⟩ := snnameArgs_printed argstype 0 hmax hp₂
    obtain ⟨r₄, h₄, hp₄⟩ := hp₃.append hmax (ascii [')'])
    obtain ⟨r, hr, h⟩ := hp₄.terminate hmax
    refine ⟨r, ?_, h.printed, fun _ => h⟩
    rw [cupTypeSnname, h₁, Option.bind_eq_bind, Option.bind_some, h₂, Option.bind_some, h₃,
      Option.bind_some, h₄]
    exact hr
  | .typeMeta size, pre, dest, post, hne => by
    have hmax := List.length_pos_iff.mpr hne
    obtain ⟨r₁, h₁, hp₁⟩ := (printed_start pre dest post).append hmax
      (ascii ['m', 'e', 't', 'a', ' ', '(', ' '])
    obtain ⟨r₂, h₂, hp₂⟩ := hp₁.append hmax (decimal size)
    obtain ⟨r₃, h₃, hp₃⟩ := hp₂.append hmax (ascii [' ', ')'])
    obtain ⟨r, hr, h⟩ := hp₃.terminate hmax
    refine ⟨r, ?_, h.printed, fun _ => h⟩
    rw [cupTypeSnname, h₁, Option.bind_eq_bind, Option.bind_some, h₂, Option.bind_some, h₃]
    exact hr

theorem snnameArgs_printed : ∀ (ts : List TypeTree) (i : Nat) {pre post name : Bytes}
    {maxlen : Nat} {r : Bytes × Nat}, 1 ≤ maxlen → Printed pre post maxlen name r →
    ∃ r', snnameArgs pre.length maxlen i ts r = some r' ∧
      Printed pre post maxlen (name ++ fullArgs i ts) r'
  | [], i, pre, post, name, maxlen, r, hmax, h => by
    refine ⟨r, rfl, ?_⟩
    rw [fullArgs, List.append_nil]
    exact h
  | t :: ts, i, pre, post, name, maxlen, r, hmax, h => by
    rw [snnameArgs, fullArgs]
    by_cases hvoid : t.isVoid
    · rw [if_pos hvoid, if_pos hvoid, List.append_nil]
      exact ⟨r, rfl, h⟩
    · rw [if_neg hvoid, if_neg hvoid]
      obtain ⟨r₁, h₁, hp₁⟩ := h.comma hmax i
      obtain ⟨r₂, h₂, hp₂⟩ := hp₁.nested hmax fun pre dest post hne => by
        obtain ⟨r', hr', hp', -⟩ := snname_printed t pre dest post hne
        exact ⟨r', hr', hp'⟩
      obtain ⟨r₃, h₃, hp₃⟩ := snnameArgs_printed ts (i + 1) hmax hp₂
      refine ⟨r₃, ?_, ?_⟩
      · rw [h₁, Option.bind_eq_bind, Option.bind_some, h₂]
        exact h₃
      · rw [← List.append_assoc, ← List.append_assoc]
        exact hp₃

end

/-- The first bytes of the full name are printed, with a NUL at the index that is returned, and
    nothing outside `dest` changes. -/
def PrintsBounded (before dest after : Bytes) (t : TypeTree) : Prop :=
  ∃ n rest, cupTypeSnname (before ++ dest ++ after) before.length dest.length t =
      some (before ++ ((fullName t).take n ++ 0 :: rest) ++ after, n) ∧
    n = min (fullName t).length (dest.length - 1) ∧ n < dest.length ∧
    n + 1 + rest.length = dest.length

/-- NULL leaves the character in front of which its name is cut. -/
theorem snname_null (before dest after : Bytes) (hne : dest ≠ []) {n : Nat}
    (hn : n = min 4 (dest.length - 1)) :
    cupTypeSnname (before ++ dest ++ after) before.length dest.length .null =
      some (before ++ ((ascii ['n', 'u', 'l', 'l', '\x00']).take (n + 1) ++ dest.drop (n + 1)) ++ after,
        n) := by
  have hmax := List.length_pos_iff.mpr hne
  have hcopy : (if (ascii ['n', 'u', 'l', 'l']).length < dest.length - 0 then
      (ascii ['n', 'u', 'l', 'l']).length else dest.length - 0 - 1) = n := by
    show (if 4 < dest.length - 0 then 4 else dest.length - 0 - 1) = n
    split <;> omega
  have hdata : ((ascii ['n', 'u', 'l', 'l', '\x00']).take (n + 1)).length = n + 1 := by
    rw [List.length_take]
    show min (n + 1) 5 = n + 1
    omega
  rw [cupTypeSnname, appendLiteral]
  dsimp only
  rw [if_pos hmax, hcopy]
  have hwrite : write (before ++ dest ++ after)
      ⟨before.length + 0, (ascii ['n', 'u', 'l', 'l', '\x00']).take (n + 1)⟩ = some (before ++
        ((ascii ['n', 'u', 'l', 'l', '\x00']).take (n + 1) ++ dest.drop (n + 1)) ++ after) := by
    rw [Lib.Image.write_between (Nat.add_zero _) (by rw [hdata]; omega), hdata]
  exact (congrArg (Option.map _) hwrite).trans (by rw [Nat.zero_add]; rfl)

/-- The name of any type is cut to the buffer; NULL is printed without its NUL when it is cut. -/
theorem printsBounded_iff (t : TypeTree) (before dest after : Bytes) (hne : dest ≠ []) :
    PrintsBounded before dest after t ↔ (t = .null → 5 ≤ dest.length) := by
  constructor
  · rintro ⟨n, rest, hok, hn, hlt, hlen⟩ rfl
    by_contra hshort
    have hn4 : n < 4 := by omega
    rw [snname_null before dest after hne hn] at hok
    have htext := List.append_cancel_left (List.append_cancel_right
      (Prod.mk.inj (Option.some.inj hok)).1)
    have hname : ((fullName .null).take n).length = n := by
      show ((ascii ['n', 'u', 'l', 'l']).take n).length = n
      rw [List.length_take]
      show min n 4 = n
      omega
    have hdata : n < ((ascii ['n', 'u', 'l', 'l', '\x00']).take (n + 1)).length := by
      rw [List.length_take]
      show n < min (n + 1) 5
      omega
    -- the character that stands at the index that is returned
    have hchar : ((ascii ['n', 'u', 'l', 'l', '\x00']).take (n + 1) ++ dest.drop (n + 1))[n]? =
        ((fullName .null).take n ++ 0 :: rest)[n]? := by
      rw [htext]
    rw [List.getElem?_append_left hdata, List.getElem?_take_of_lt (Nat.lt_succ_self n),
      List.getElem?_append_right (by omega), hname, Nat.sub_self] at hchar
    have hnul : ∀ i < 4, (ascii ['n', 'u', 'l', 'l', '\x00'])[i]? ≠ some 0 := by decide
    exact hnul n hn4 hchar
  · intro hroom
    by_cases hnull : t = .null
    · subst hnull
      have h5 := hroom rfl
      refine ⟨4, dest.drop 5, ?_, ?_, by omega, ?_⟩
      · exact snname_null before dest after hne (n := 4) (by omega)
      · show 4 = min 4 (dest.length - 1)
        omega
      · rw [List.length_drop]
        omega
    · obtain ⟨r, hr, -, hterm⟩ := snname_printed t before dest after hne
      obtain ⟨hcount, rest, htext, hlen⟩ := hterm hnull
      exact ⟨r.2, rest, by rw [hr, ← htext], hcount, by omega, hlen⟩

/-- A function with an unknown parameter in a buffer of six bytes. -/
theorem printsBounded_unknown :
    PrintsBounded [] [7, 7, 7, 7, 7, 7] [] (.function (.simple .typeInt) [.null]) ↔
      (TypeTree.function (.simple .typeInt) [.null] = .null → 5 ≤ [7, 7, 7, 7, 7, 7].length) :=
  printsBounded_iff _ _ _ _ (by decide)

/-- NULL in a buffer of three bytes. -/
theorem not_printsBounded_null : ¬ PrintsBounded [] [7, 7, 7] [] .null ∧
    cupTypeSnname [7, 7, 7] 0 3 .null = some (ascii ['n', 'u', 'l'], 2) := by
  refine ⟨?_, by decide⟩
  rintro ⟨n, rest, hok, -⟩
  have hrun : cupTypeSnname ([] ++ [7, 7, 7] ++ []) (List.length ([] : Bytes)) 3 .null =
      some (ascii ['n', 'u', 'l'], 2) := by decide
  obtain ⟨htext, rfl⟩ := Prod.mk.inj (Option.some.inj (hrun.symm.trans hok))
  have hchar : (ascii ['n', 'u', 'l'])[2]? = some 0 := by
    rw [htext]
    rfl
  exact absurd hchar (by decide)

end Cup
