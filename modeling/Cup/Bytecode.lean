/-
  The bytecode dump (`cup_write_bytecode_f`, `src/moduler.c`): the loop over the nodes prints a
  line for each token, with the payload node behind it if the token is on its own list of those
  that have one.

  `T_DOUBLE` and `N_ADDRESS` have a payload and are not on the list. The loop is in step with a
  stream of the parser or of the resolver exactly when none of these two is in it.
-/
import Cup.Assignment
import Cup.Moduler
import Cup.Consumption

namespace Cup

open Lib (Stop Run)

/-! ## The loop -/

/-- The tokens behind which the loop steps over a payload. -/
def dumpReads : CTType → Bool
  | .nBlock | .tNumber | .tComma | .tIdentifier | .nArray | .tString | .tMstring => true
  | _ => false

/-- The loop of `cup_write_bytecode_f`: the token and the payload of each line. Any other node
    at `it` is a payload, whose bits would be the index into `token_names`. -/
def dumpNodes : List Node → Except Stop (List Cell)
  | [] => .ok []
  | .tok loc :: rest =>
    if dumpReads loc.token then
      match rest with
      | [] => .error (.fault "read past range.end")
      | p :: rest => (dumpNodes rest).map (⟨loc, some p⟩ :: ·)
    else (dumpNodes rest).map (⟨loc, none⟩ :: ·)
  | _ => .error (.fault "a payload read as a token")

/-- The tokens that have a payload and are not on the list. -/
def unlisted (t : CTType) : Prop := t = .tDouble ∨ t = .nAddress

theorem paired_iff (t : CTType) : paired t = dumpReads t ↔ ¬ unlisted t := by
  cases t <;> simp [paired, wide, dumpReads, unlisted]

theorem paired_of_dumpReads {t : CTType} (h : dumpReads t = true) : paired t = true := by
  revert h
  cases t <;> decide

theorem dumpNodes_token {loc : Loc} {rest : List Node} (h : dumpReads loc.token = false) :
    dumpNodes (.tok loc :: rest) = (dumpNodes rest).map (⟨loc, none⟩ :: ·) := by
  rw [dumpNodes.eq_def]
  exact if_neg (by rw [h]; decide)

theorem dumpNodes_pair {loc : Loc} {p : Node} {rest : List Node} (h : dumpReads loc.token) :
    dumpNodes (.tok loc :: p :: rest) = (dumpNodes rest).map (⟨loc, some p⟩ :: ·) := by
  simp [dumpNodes, h]

theorem map_cons_eq_ok {α ε : Type} {x : Except ε (List α)} {a b : α} {l : List α} :
    x.map (a :: ·) = .ok (b :: l) ↔ a = b ∧ x = .ok l := by
  cases x <;> simp [Except.map]

/-- One step: the line of a token that is listed or has no payload is right. -/
theorem dumpNodes_cons {c : Cell} {rest : List Node} {lines : List Cell}
    (hc : c.payload.isSome = paired c.token) :
    dumpNodes (c.nodes ++ rest) = .ok (c :: lines) ↔
      ¬ unlisted c.token ∧ dumpNodes rest = .ok lines := by
  obtain ⟨loc, p⟩ := c
  change p.isSome = paired loc.token at hc
  change _ ↔ ¬ unlisted loc.token ∧ _
  rw [← paired_iff, ← hc]
  cases hd : dumpReads loc.token with
  | false =>
    cases p with
    | none =>
      change dumpNodes (.tok loc :: rest) = _ ↔ _
      rw [dumpNodes_token hd, map_cons_eq_ok]
      simp
    | some x =>
      change dumpNodes (.tok loc :: x :: rest) = _ ↔ _
      rw [dumpNodes_token hd, map_cons_eq_ok]
      simp
  | true =>
    cases p with
    | none =>
      have hp := paired_of_dumpReads hd
      rw [← hc] at hp
      cases hp
    | some x =>
      change dumpNodes (.tok loc :: x :: rest) = _ ↔ _
      rw [dumpNodes_pair hd, map_cons_eq_ok]
      simp

/-- The loop is in step with a stream: each line is a token with its payload, up to the end. -/
theorem dumpNodes_inStep_iff {nodes : List Node} {cells : List Cell} (h : StreamOf nodes cells) :
    dumpNodes nodes = .ok cells ↔ ∀ c ∈ cells, ¬ unlisted c.token := by
  obtain ⟨rfl, hp⟩ := h
  induction cells with
  | nil => simp [dumpNodes]
  | cons c cells ih =>
    rw [encode_cons, dumpNodes_cons (hp c List.mem_cons_self),
      ih fun d hd => hp d (List.mem_cons_of_mem _ hd), List.forall_mem_cons]

/-! ## The streams -/

/-- A stream, in step with the loop if and only if every token with a payload is listed. -/
def DumpsListed (nodes : List Node) : Prop :=
  ∃ cells, StreamOf nodes cells ∧
    (dumpNodes nodes = .ok cells ↔ ∀ c ∈ cells, ¬ unlisted c.token)

theorem Written.dumpsListed {nodes : List Node} (h : Written nodes) : DumpsListed nodes := by
  obtain ⟨cells, hcells⟩ := h
  exact ⟨cells, hcells, dumpNodes_inStep_iff hcells⟩

theorem paired_of_inStream {t : CTType} (h : inStream t) : paired t = wide t := by
  revert h
  cases t <;> decide

/-- What the parser returns. -/
theorem Post.written {es : List Event} {v : Nodes} (h : Post es v) : Written v.items := by
  obtain ⟨cells, hv, ⟨rfl, -⟩ | ⟨-, hforest⟩⟩ := h
  · exact ⟨[], hv.items, by simp⟩
  · refine ⟨cells, hv.items, fun c hc => ?_⟩
    rw [paired_of_inStream (hforest.known c hc)]
    exact (hforest.ok c hc).1

/-- What the resolver returns, accepted or not. -/
theorem resolve_written {H : ResHost} {s : CUPState} {nodes : List Node} {failed : Bool}
    {r : ResState} (h : resolve H s nodes = .ok failed r) : Written r.new := by
  obtain ⟨v, s', hv, h⟩ := Run.bind_eq_ok.mp h
  obtain ⟨w, hw, hc, -⟩ :=
    (Run.sat_of_ok hv).mp (inferTypes_solid H _ false false { cup := s, range := nodes })
  have hnew : r.new = s'.new := by
    cases v with
    | any t => cases h
    | _ =>
      cases h
      rfl
  rw [hnew, hw]
  exact hc

/-- The statements of a module. -/
theorem logs_moduleLoop {host : Host} {loc : Loc} (n : Nat) {k : Nat} {v : Nodes} {a : List Cell}
    {es : List Event} (hloc : loc.token = .nBlock)
    (hv : Holds v (⟨loc, some (.value k)⟩ :: a)) (ha : Forest k es a) :
    Logs (moduleLoop host n v) fun es' r => Post (es ++ es') r := by
  induction n generalizing v a k es with
  | zero => exact logs_stop (by decide)
  | succ n ih =>
    unfold moduleLoop
    refine logs_get_bind fun s _ => ?_
    split
    · refine logs_pure (Forest.post ?_ hv)
      exact Forest.plain (by simpa using ha) (ok_of_count (by rw [hloc]; rfl))
        (by rw [Cell.token, hloc]; rfl) (by simp [arity, Cell.token, hloc, Node.val])
    · refine logs_bind (logs_statement host) fun es' w hw => ?_
      refine logs_pushStatement_bind hv ha hw fun k' b v' hv' hb => ?_
      exact logs_mono (ih hv' hb) fun es'' r h => by simpa using h

/-- The front end returns one tree, up to the defects that are recorded. -/
theorem logs_parseNodes (host : Host) (text : Bytes) : Logs (parseNodes host text) Post := by
  intro s _
  unfold parseNodes
  rw [Run.sat_bind, Run.sat_modify]
  have hlogs : Logs (do
      let nodes ← pushNode2 {} ⟨⟨.nBlock, 1, 1⟩, .value 0⟩
      getToken false
      moduleLoop host (text.length + 1) nodes) Post := by
    refine logs_pushNode2_bind holds_null fun v hv => logs_getToken_bind ?_
    exact logs_mono (logs_moduleLoop _ rfl hv (Forest.nil clean_nil)) fun es r h => by simpa using h
  exact hlogs { s with priv := none, input := text, nodes := ⟨⟨.nBlock, 1, 1⟩, .value 0⟩ }
    fun _ _ _ => rfl

/-- A host whose callbacks answer everything with the address 4096. -/
def addressHost : ResHost :=
  { bareResHost with metaGen := fun _ _ _ => pure (.done, .address (some (.base .typeInt)) 4096) }

/-- The text `1.5`. -/
def doubleText : Bytes := ascii ['1', '.', '5']

/-- The text `$.x`. -/
def memberText : Bytes := ascii ['$', '.', 'x']

end Cup
