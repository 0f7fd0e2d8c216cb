/-
  Calls (`case T_CALL` of `codegen_expr`, `src/codegen/x64codegen.c`), and with them the code of
  every expression.

  The arguments that are computed are pushed and popped into their registers, those that are
  leaves are loaded behind that, and the callee goes to `r11` last (`callCase_computes`).

  Conditions. The nodes are read as an expression (`Reads`): an array literal has at most 2^28
  elements, so that their distances are those of an instruction. The target is no register that a
  function hands back. The functions that are called do what the reference says and obey the
  calling convention (`CallsAs`). The stack has room for the words that the code pushes
  (`World.words`) and is aligned as the generator counts (`Aligned`).

  Proved:
  * `codegenExpr_computes`: the code of an expression, from its first byte to past its last,
    leaves in the target what `World.eval` gives, changes the memory outside of the stack as that
    does, and hands back the stack and the registers that are held; else the generator has given
    up with the exit code 1.

  Nothing is said of a run for which the reference does not return: it touches the stack, or a
  call in it does not return. A nested definition is no expression here.
-/
import Cup.Evaluation

namespace Cup

open Lib (Stop Run Res)
open Lib.X64

/-! ## The stack pointer -/

section Alignment

variable {S : Stack} {k d : Nat}

theorem top_mod (S : Stack) (k : Nat) : (S.top k).toNat % 16 = (S.lo.toNat + k) % 16 := by
  rw [Stack.top, BitVec.toNat_add, BitVec.toNat_ofNat]
  omega

/-- Every word that is pushed moves the stack pointer by 8. -/
theorem Aligned.push {n d' : Nat} (h : Aligned S k d) (hk : 8 * n ≤ k)
    (hd : d' % 2 = (d + n) % 2) : Aligned S (k - 8 * n) d' := by
  unfold Aligned at h ⊢
  rw [top_mod] at h ⊢
  omega

theorem Deeper.push {s s' : GenState} {n : Nat} (h : Deeper n s s')
    (hal : Aligned S k s.fn.depth) (hk : 8 * n ≤ k) : Aligned S (k - 8 * n) s'.fn.depth :=
  hal.push hk h.parity

end Alignment

/-! ## Words on the stack -/

section Pushing

variable {σ : Type} (W : World σ) (ext : Reg → Machine → σ → Option (Machine × σ))

/-- Nodes were taken, and code was emitted that does what `f` does and leaves `n` words on the
    stack. -/
structure Pushes {α : Type} (need n : Nat) (f : Meaning σ α) (post : Nat → α → Machine → Prop)
    (rest : List Node) (s s' : GenState) : Prop where
  range : s'.range = rest
  busy : s'.fn.busy = s.fn.busy
  depth : Deeper n s s'
  code : ∃ bytes, Emits s s' bytes ∧ ∀ k, 8 * need ≤ k → k ≤ W.stack.size →
    Aligned W.stack k s.fn.depth →
      Does W.stack ext (Kept False .rax s s') k k (k - 8 * n) bytes (fun _ => True) f (post k)

variable {W} {ext} {L : Layout} {c : CUPState} {rec : GenExpr} {s s' : GenState}
  {l rest more : List Node} {e : Expr} {treg : X64Reg}

/-- Work among which there may be calls: no more is kept. -/
theorem Works.calls {calm : Prop} {α : Type} {need : Nat} {pre : Machine → Prop}
    {f : Meaning σ α} {post : α → Machine → Prop}
    (h : Works W ext calm treg need pre f post rest s s') :
    Works W ext False .rax need pre f post rest s s' := by
  obtain ⟨bytes, hem, hcode⟩ := h.code
  refine ⟨h.range, h.busy, h.depth, bytes, hem, fun k hk hsize hal => ?_⟩
  exact (hcode k hk hsize fun _ => hal not_false).of_keep fun _ hr => hr.of_calls

/-- Where no call returns, nothing is said of what calls. -/
theorem Works.of_calls {α : Type} {need : Nat} {pre : Machine → Prop} {f : Meaning σ α}
    {post : α → Machine → Prop} (h : Works W ext False .rax need pre f post rest s s')
    (hf : W.Calm → ∀ x v x', f x ≠ .ok v x') :
    Works W ext W.Calm treg need pre f post rest s s' := by
  obtain ⟨bytes, hem, hcode⟩ := h.code
  refine ⟨h.range, h.busy, h.depth, bytes, hem, fun k hk hsize hal => ?_⟩
  by_cases hcalm : W.Calm
  · exact fun m M x v M' x' _ _ hok => absurd hok (hf hcalm _ _ _)
  · exact (hcode k hk hsize fun _ => hal hcalm).of_keep fun _ hr => hr.calls hcalm

/-- A value is computed in `rax` and pushed. -/
theorem single_push (hsub : Subtree W ext L c rec l e) (hc : SameTables c s.cup)
    (hs : s.range = l ++ more) {β : Type} {q : Gen β} {Q : β → GenState → Prop}
    (hq : ∀ s', s.buf.length < s'.buf.length → Pushes W ext (max (W.words e) 1) 1 (W.eval true e)
      (fun k v m => W.stack.Words m.mem (k - 8) [v]) more s s' → q.Sat s' Q GivesUp) :
    (single rec .rax (some .rax) >>= fun _ => emitPush .rax >>= fun _ => q).Sat s Q GivesUp := by
  refine sat_then (hsub.single rfl hc hs) fun _ s₁ h₁ => ?_
  obtain ⟨bytes, hem, hcode⟩ := h₁.toWorks.calls.code
  unfold emitPush
  rw [Run.sat_bind, Run.sat_bind, emit, Run.sat_modify, Run.sat_modify]
  have hpush : ∀ d, Emits s₁
      { s₁ with buf := s₁.buf ++ pushBytes .rax, fn := { s₁.fn with depth := d } }
      (pushBytes .rax) := fun _ => .of_eq (.of_code (code_push .rax) rfl) rfl rfl rfl rfl rfl
  have hdeeper : Deeper 1 s₁ { s₁ with
      buf := s₁.buf ++ pushBytes .rax
      fn := { s₁.fn with depth := (s₁.fn.depth + 1) % 2 ^ 32 } } :=
    ⟨by dsimp only; omega, fun _ => by dsimp only; omega⟩
  refine hq _ (h₁.grows.trans_le (hpush _).length_le)
    ⟨h₁.range, h₁.busy, h₁.depth.trans hdeeper rfl, _, hem.trans (hpush _),
      fun k hk hsize hal => ?_⟩
  · refine ((hcode k (by omega) hsize fun _ => hal).of_keep fun _ hr =>
      hr.left (hpush _).toAppended).then_code fun v => ?_
    refine does_push (code_push .rax) (by omega) hsize (Nat.le_refl k) not_kept_rsp ?_
    rintro m m' hm hload - -
    exact ⟨hload.trans hm, trivial⟩

end Pushing

/-! ## Arguments -/

section Arguments

variable {σ : Type} {W : World σ} {ext : Reg → Machine → σ → Option (Machine × σ)} {L : Layout}
  {c : CUPState} {rec : GenExpr} {s : GenState} {rest : List Node}

/-- What the loop over the arguments keeps of one of them. -/
def argNodes (q : List Node × Expr) : Option (List Node) := if q.2.isLeaf then some q.1 else none

/-- The arguments that are computed, and pushed. -/
def computed (es : List Expr) : Nat := es.countP fun e => !e.isLeaf

/-- There is a value for each argument that is no leaf. -/
def Computed (es : List Expr) (vs : List (Option Word)) : Prop :=
  vs.map Option.isSome = es.map fun e => !e.isLeaf

/-- The values in the order in which they lie on the stack. -/
def stacked (vs : List (Option Word)) : List Word := (vs.filterMap id).reverse

theorem computed_leaf {e : Expr} (h : e.isLeaf = true) (es : List Expr) :
    computed (e :: es) = computed es := by
  simp [computed, h]

theorem computed_value {e : Expr} (h : e.isLeaf = false) (es : List Expr) :
    computed (e :: es) = computed es + 1 := by
  simp [computed, h]

theorem computed_le (es : List Expr) : computed es ≤ W.wordsAll es := by
  induction es with
  | nil => exact Nat.zero_le _
  | cons e es ih =>
    rw [World.wordsAll]
    cases h : e.isLeaf with
    | true =>
      rw [computed_leaf h]
      omega
    | false =>
      rw [computed_value h]
      omega

@[simp] theorem stacked_some (w : Word) (vs : List (Option Word)) :
    stacked (some w :: vs) = stacked vs ++ [w] := by
  simp [stacked]

@[simp] theorem stacked_none (vs : List (Option Word)) : stacked (none :: vs) = stacked vs := by
  simp [stacked]

theorem Computed.length_stacked {es : List Expr} {vs : List (Option Word)} (h : Computed es vs) :
    (stacked vs).length = computed es := by
  induction vs generalizing es with
  | nil =>
    obtain rfl : es = [] := List.map_eq_nil_iff.mp h.symm
    rfl
  | cons v vs ih =>
    cases es with
    | nil => cases h
    | cons e es =>
      obtain ⟨hv, hvs⟩ := List.cons.inj h
      cases v with
      | none =>
        have he : e.isLeaf = true := by simpa using hv
        rw [stacked_none, computed_leaf he, ih hvs]
      | some w =>
        have he : e.isLeaf = false := by simpa using hv
        rw [stacked_some, computed_value he, List.length_append, ih hvs, List.length_singleton]

theorem callArgs_succ (k : Nat) : callArgs rec (k + 1) = Run.get >>= fun s =>
    if leafSize s.range ≠ 0 then skipNodes (leafSize s.range) >>= fun _ =>
      callArgs rec k >>= fun rest => pure (some (s.range.take (leafSize s.range)) :: rest)
    else single rec .rax (some .rax) >>= fun _ => emitPush .rax >>= fun _ =>
      callArgs rec k >>= fun rest => pure (none :: rest) := rfl

/-- The arguments from left to right: those that are computed lie on the stack. -/
theorem callArgs_pushes {ps : List (List Node × Expr)}
    (hsub : ∀ q ∈ ps, Subtree W ext L c rec q.1 q.2) (hc : SameTables c s.cup)
    (hs : s.range = ps.flatMap Prod.fst ++ rest) :
    (callArgs rec ps.length).Sat s
      (fun args s' => args = ps.map argNodes ∧
        Pushes W ext (W.wordsAll (ps.map Prod.snd)) (computed (ps.map Prod.snd))
          (W.evalFirst (ps.map Prod.snd))
          (fun k vs m => Computed (ps.map Prod.snd) vs ∧
            W.stack.Words m.mem (k - 8 * computed (ps.map Prod.snd)) (stacked vs)) rest s s')
      GivesUp := by
  induction ps generalizing s with
  | nil =>
    simp only [List.map_nil]
    rw [World.evalFirst]
    exact ⟨rfl, hs, rfl, .of_eq rfl, [], .of_eq .nil (List.append_nil _).symm rfl rfl rfl rfl,
      fun k _ _ _ => does_pure fun _ _ => ⟨rfl, trivial⟩⟩
  | cons q ps ih =>
    obtain ⟨l, e⟩ := q
    have hq : Subtree W ext L c rec l e := hsub (l, e) List.mem_cons_self
    have hps : ∀ q ∈ ps, Subtree W ext L c rec q.1 q.2 := fun q h =>
      hsub q (List.mem_cons_of_mem _ h)
    rw [List.flatMap_cons, List.append_assoc] at hs
    have hleafSize := hq.reads.leafSize (ps.flatMap Prod.fst ++ rest)
    rw [List.length_cons, callArgs_succ, Run.sat_bind, Run.sat_get, hs, List.map_cons, List.map_cons]
    dsimp only
    cases hleaf : e.isLeaf with
    | true =>
      have hlen := hq.reads.length_pos
      have hdrop : s.range.drop l.length = ps.flatMap Prod.fst ++ rest := by
        rw [hs, List.drop_left]
      have hcount := computed_leaf hleaf (ps.map Prod.snd)
      rw [if_pos hleaf] at hleafSize
      rw [hleafSize, if_pos (by omega), Run.sat_bind, skipNodes, Run.sat_modify, hdrop]
      refine sat_then (ih (s := { s with range := ps.flatMap Prod.fst ++ rest }) hps hc rfl) ?_
      rintro args s' ⟨rfl, h'⟩
      obtain ⟨bytes, hem, hcode⟩ := h'.code
      refine ⟨?_, h'.range, h'.busy, hcount ▸ ⟨h'.depth.depth, h'.depth.bound⟩, bytes,
        ⟨⟨hem.buf, hem.used, hem.cup, hem.returns, hem.reallocs⟩, hem.straight⟩,
        fun k hk hsize hal => ?_⟩
      · rw [argNodes, if_pos hleaf, List.take_left]
      · rw [World.wordsAll] at hk
        rw [World.evalFirst, if_pos hleaf, Run.pure_bind', hcount]
        refine ((hcode k (by omega) hsize hal).to_post fun vs m hm => ⟨?_, ?_⟩).map
        · exact List.cons_eq_cons.mpr ⟨(congrArg (!·) hleaf).symm, hm.1⟩
        · rw [stacked_none]
          exact hm.2
    | false =>
      have hcount := computed_value hleaf (ps.map Prod.snd)
      have hle := computed_le (W := W) (ps.map Prod.snd)
      rw [if_neg (by rw [hleaf]; decide)] at hleafSize
      rw [hleafSize, if_neg (not_not.mpr rfl)]
      refine single_push hq hc hs fun s₁ _ h₁ => ?_
      obtain ⟨bytes₁, hem₁, hcode₁⟩ := h₁.code
      refine sat_then (ih hps (hem₁.tables hc) h₁.range) ?_
      rintro args s' ⟨rfl, h'⟩
      obtain ⟨bytes, hem, hcode⟩ := h'.code
      refine ⟨by rw [argNodes, if_neg (by rw [hleaf]; decide)], h'.range, h'.busy.trans h₁.busy,
        h₁.depth.trans h'.depth (by rw [hcount]; omega), _, hem₁.trans hem,
        fun k hk hsize hal => ?_⟩
      · rw [World.wordsAll] at hk
        rw [World.evalFirst, if_neg (by rw [hleaf]; decide), hcount]
        have hal₁ : Aligned W.stack (k - 8 * 1) s₁.fn.depth := h₁.depth.push hal (by omega)
        have hleft : Does W.stack ext (Kept False .rax s s') k k (k - 8) bytes₁ (fun _ => True)
            (W.eval true e) fun v m => W.stack.Words m.mem (k - 8) [v] :=
          (hcode₁ k (by omega) hsize hal).of_keep fun _ hr => hr.left hem.toAppended
        refine hleft.bind fun v => ?_
        rw [Run.pure_bind']
        have hright := (hcode (k - 8) (by omega) (by omega) hal₁).words (k - 8) [v]
          (Nat.le_refl _) (by rw [List.length_singleton]; omega)
        have hsub8 : k - 8 - 8 * computed (ps.map Prod.snd) =
            k - 8 * (computed (ps.map Prod.snd) + 1) := by omega
        rw [hsub8] at hright
        refine Does.map (hright.mono (fun r hr => hr.right fun q hq => by rwa [h₁.busy])
          (by omega) (fun m hm => ⟨trivial, hm⟩) fun vs m hm => ⟨?_, ?_⟩)
        · exact List.cons_eq_cons.mpr ⟨(congrArg (!·) hleaf).symm, hm.1.1⟩
        · rw [stacked_some, Stack.words_append, hm.1.1.length_stacked]
          refine ⟨hm.1.2, ?_⟩
          have hadd : k - 8 * (computed (ps.map Prod.snd) + 1) + 8 * computed (ps.map Prod.snd) =
              k - 8 := by omega
          rw [hadd]
          exact hm.2

/-- The values that were computed are in their registers. -/
def Loaded (regs : List X64Reg) (vs : List (Option Word)) (m : Machine) : Prop :=
  ∀ q ∈ regs.zip vs, ∀ w, q.2 = some w → m.regs q.1 = w

theorem Loaded.of_regs {regs : List X64Reg} {vs : List (Option Word)} {m m' : Machine}
    (h : Loaded regs vs m) (hm : ∀ q ∈ regs, m'.regs q = m.regs q) : Loaded regs vs m' :=
  fun q hq w hw => (hm q.1 (List.of_mem_zip hq).1).trans (h q hq w hw)

theorem loaded_cons {r : X64Reg} {regs : List X64Reg} {v : Option Word} {vs : List (Option Word)}
    {m : Machine} : Loaded (r :: regs) (v :: vs) m ↔
      (∀ w, v = some w → m.regs r = w) ∧ Loaded regs vs m := by
  unfold Loaded
  rw [List.zip_cons_cons, List.forall_mem_cons]

/-- What pops the pushed values into their registers. -/
structure Pops {σ : Type} (W : World σ) (ext : Reg → Machine → σ → Option (Machine × σ))
    (regs : List X64Reg) (es : List Expr) (s s' : GenState) : Prop where
  range : s'.range = s.range
  busy : s'.fn.busy = s.fn.busy
  depth : Deeper (-computed es) s s'
  code : ∃ bytes, Emits s s' bytes ∧ ∀ k vs, Computed es vs →
    k + 8 * computed es ≤ W.stack.size →
      Does W.stack ext (fun q => q ∉ regs ∧ q ≠ .rsp) k k (k + 8 * computed es) bytes
        (fun m => W.stack.Words m.mem k (stacked vs)) (pure () : Meaning σ Unit)
        fun _ m => Loaded regs vs m

/-- The state behind a pop, with the depth `d`. -/
def popped (s : GenState) (r : X64Reg) (d : Nat) : GenState :=
  { s with buf := s.buf ++ popBytes r, fn := { s.fn with depth := d } }

/-- A word less is on the stack. -/
theorem emitPop_ok (r : X64Reg) (s : GenState) : ∃ d, Deeper (-1) s (popped s r d) ∧
    emitPop r s = .ok () (popped s r d) := by
  refine ⟨(s.fn.depth + (2 ^ 32 - 1)) % 2 ^ 32, ⟨?_, fun _ => ?_⟩, ?_⟩
  · dsimp only [popped]
    omega
  · dsimp only [popped]
    omega
  · rw [emitPop, emit, Run.modify_bind, Run.modify_apply, popped]

theorem emits_popped (s : GenState) (r : X64Reg) (d : Nat) : Emits s (popped s r d) (popBytes r) :=
  .of_eq (.of_code (code_pop r) rfl) rfl rfl rfl rfl rfl

theorem popArgs_pops (W : World σ) (ext : Reg → Machine → σ → Option (Machine × σ))
    {regs : List X64Reg} {ps : List (List Node × Expr)}
    (hregs : ∀ r ∈ regs, r.calleeSaved = false) (hnodup : regs.Nodup)
    (hlen : ps.length ≤ regs.length) :
    (popArgs (regs.zip (ps.map argNodes))).Sat s
      (fun _ s' => Pops W ext regs (ps.map Prod.snd) s s') GivesUp := by
  induction regs generalizing ps with
  | nil =>
    obtain rfl : ps = [] := List.length_eq_zero_iff.mp (Nat.le_zero.mp hlen)
    refine ⟨rfl, rfl, .of_eq rfl, [], .of_eq .nil (List.append_nil _).symm rfl rfl rfl rfl,
      fun k vs _ _ => ?_⟩
    exact does_pure fun _ _ q hq => by cases hq
  | cons r regs ih =>
    obtain ⟨hr, hregs⟩ := List.forall_mem_cons.mp hregs
    obtain ⟨hnotin, hnodup⟩ := List.nodup_cons.mp hnodup
    cases ps with
    | nil =>
      refine ⟨rfl, rfl, .of_eq rfl, [], .of_eq .nil (List.append_nil _).symm rfl rfl rfl rfl,
        fun k vs hvs _ => ?_⟩
      obtain rfl : vs = [] := List.map_eq_nil_iff.mp hvs
      exact does_pure fun _ _ q hq => by cases hq
    | cons q ps =>
      obtain ⟨l, e⟩ := q
      rw [List.map_cons, List.map_cons, List.zip_cons_cons, popArgs]
      dsimp only
      refine sat_then (ih hregs hnodup (Nat.le_of_succ_le_succ hlen)) fun _ s₁ h₁ => ?_
      obtain ⟨bytes, hem, hcode⟩ := h₁.code
      have hkeep : ∀ q, (q ∉ r :: regs ∧ q ≠ .rsp) → q ∉ regs ∧ q ≠ .rsp := fun q hq =>
        ⟨fun h => hq.1 (List.mem_cons_of_mem _ h), hq.2⟩
      cases hleaf : e.isLeaf with
      | true =>
        have hnodes : argNodes (l, e) = some l := if_pos hleaf
        rw [hnodes, if_neg fun h => by cases h]
        refine ⟨h₁.range, h₁.busy, ?_, bytes, hem, fun k vs hvs hsize => ?_⟩
        · rw [computed_leaf hleaf]
          exact h₁.depth
        cases vs with
        | nil => cases hvs
        | cons v vs =>
          obtain ⟨hv, htail⟩ := List.cons.inj hvs
          obtain rfl : v = none := by simpa [hleaf] using hv
          rw [computed_leaf hleaf, stacked_none]
          rw [computed_leaf hleaf] at hsize
          exact (hcode k vs htail hsize).mono hkeep (Nat.le_refl k) (fun _ h => h) fun _ m hm =>
            loaded_cons.mpr ⟨fun w hw => (by cases hw), hm⟩
      | false =>
        have hnodes : argNodes (l, e) = none := if_neg (by rw [hleaf]; decide)
        obtain ⟨d, hd, hpop⟩ := emitPop_ok r s₁
        rw [hnodes, if_pos Option.isNone_none, Run.sat_of_ok hpop]
        have hcount := computed_value hleaf (ps.map Prod.snd)
        refine ⟨h₁.range, h₁.busy, h₁.depth.trans hd (by rw [hcount]; omega), _,
          hem.trans (emits_popped s₁ r d), fun k vs hvs hsize => ?_⟩
        · cases vs with
          | nil => cases hvs
          | cons v vs =>
            obtain ⟨hv, htail⟩ := List.cons.inj hvs
            obtain ⟨w, rfl⟩ : ∃ w, v = some w := Option.isSome_iff_exists.mp (by
              simpa [hleaf] using hv)
            rw [hcount] at hsize ⊢
            have hwords := (hcode k vs htail (by omega)).words (k + 8 * computed (ps.map Prod.snd)) [w]
              (Nat.le_add_right k (8 * computed (ps.map Prod.snd)))
              (by rw [List.length_singleton]; omega)
            have hend : k + 8 * (computed (ps.map Prod.snd) + 1) =
                k + 8 * computed (ps.map Prod.snd) + 8 := by omega
            rw [hend, stacked_some]
            refine (hwords.mono hkeep (Nat.le_refl k) (fun m hm => ?_) fun _ _ hm => hm).then_code
              fun _ => does_pop (code_pop r) (scratch_ne hr) (fun hk => hk.2 rfl)
                (fun hk => hk.1 List.mem_cons_self) fun m m' hm hmem hpopped hothers => ?_
            · rw [Stack.words_append, Computed.length_stacked htail] at hm
              exact hm
            · refine loaded_cons.mpr ⟨?_, hm.1.of_regs fun q hq => hothers q ?_ ?_⟩
              · rintro _ ⟨⟩
                exact hpopped.trans hm.2.1
              · exact scratch_ne (hregs q hq)
              · rintro rfl
                exact hnotin hq

/-- The arguments are in their registers. -/
def InRegs (regs : List X64Reg) (xs : List Word) (m : Machine) : Prop :=
  ∀ q ∈ regs.zip xs, m.regs q.1 = q.2

theorem InRegs.of_regs {regs : List X64Reg} {xs : List Word} {m m' : Machine}
    (h : InRegs regs xs m) (hm : ∀ q ∈ regs, m'.regs q = m.regs q) : InRegs regs xs m' :=
  fun q hq => (hm q.1 (List.of_mem_zip hq).1).trans (h q hq)

theorem inRegs_cons {r : X64Reg} {regs : List X64Reg} {x : Word} {xs : List Word} {m : Machine} :
    InRegs (r :: regs) (x :: xs) m ↔ m.regs r = x ∧ InRegs regs xs m := by
  unfold InRegs
  rw [List.zip_cons_cons, List.forall_mem_cons]

/-- What loads the leaves among the arguments into their registers. -/
structure Loads {σ : Type} (W : World σ) (ext : Reg → Machine → σ → Option (Machine × σ))
    (regs : List X64Reg) (es : List Expr) (s s' : GenState) : Prop where
  range : s'.range = s.range
  fn : s'.fn = s.fn
  code : ∃ bytes, Emits s s' bytes ∧ ∀ K k vs, Computed es vs →
    Does W.stack ext (fun q => q ∉ regs) K k k bytes (Loaded regs vs) (W.argValues es vs)
      fun xs m => xs.length = es.length ∧ InRegs regs xs m

theorem loads_nil {regs : List X64Reg} : Loads W ext regs [] s s := by
  refine ⟨rfl, rfl, [], .of_eq .nil (List.append_nil _).symm rfl rfl rfl rfl, fun K k vs hvs => ?_⟩
  obtain rfl : vs = [] := List.map_eq_nil_iff.mp hvs
  have hnone : W.argValues [] [] = pure [] := rfl
  rw [hnone]
  exact does_pure fun _ _ => ⟨rfl, fun q hq => by rw [List.zip_nil_right] at hq; cases hq⟩

theorem loadArgs_loads {regs : List X64Reg} {ps : List (List Node × Expr)}
    (hregs : ∀ r ∈ regs, r.calleeSaved = false) (hnodup : regs.Nodup)
    (hlen : ps.length ≤ regs.length) (hsub : ∀ q ∈ ps, Subtree W ext L c rec q.1 q.2)
    (hc : SameTables c s.cup) :
    (loadArgs rec (regs.zip (ps.map argNodes))).Sat s
      (fun _ s' => Loads W ext regs (ps.map Prod.snd) s s') GivesUp := by
  induction regs generalizing ps s with
  | nil =>
    obtain rfl : ps = [] := List.length_eq_zero_iff.mp (Nat.le_zero.mp hlen)
    exact loads_nil
  | cons r regs ih =>
    obtain ⟨hr, hregs⟩ := List.forall_mem_cons.mp hregs
    obtain ⟨hnotin, hnodup⟩ := List.nodup_cons.mp hnodup
    cases ps with
    | nil => exact loads_nil
    | cons q ps =>
      obtain ⟨l, e⟩ := q
      have hq : Subtree W ext L c rec l e := hsub (l, e) List.mem_cons_self
      have hps : ∀ q ∈ ps, Subtree W ext L c rec q.1 q.2 := fun q h =>
        hsub q (List.mem_cons_of_mem _ h)
      have hlen' : ps.length ≤ regs.length := Nat.le_of_succ_le_succ hlen
      -- the register that is loaded already is none of those that follow
      have hframe : ∀ {K k : Nat} {bytes : Bytes} {vs : List (Option Word)} (x : Word),
          Does W.stack ext (fun q => q ∉ regs) K k k bytes (Loaded regs vs)
            (W.argValues (ps.map Prod.snd) vs)
            (fun xs m => xs.length = (ps.map Prod.snd).length ∧ InRegs regs xs m) →
          Does W.stack ext (fun q => q ∉ r :: regs) K k k bytes
            (fun m => m.regs r = x ∧ Loaded regs vs m)
            (W.argValues (ps.map Prod.snd) vs >>= fun xs => pure (x :: xs))
            (fun xs m => xs.length = (e :: ps.map Prod.snd).length ∧ InRegs (r :: regs) xs m) := by
        intro K k bytes vs x hdoes
        refine ((hdoes.frame hnotin x).mono (fun q hq h => hq (List.mem_cons_of_mem _ h))
          (Nat.le_refl K) (fun m hm => ⟨hm.2, hm.1⟩) fun xs m hm => ⟨?_, ?_⟩).map
        · rw [List.length_cons, List.length_cons, hm.1.1]
        · exact inRegs_cons.mpr ⟨hm.2, hm.1.2⟩
      rw [List.map_cons, List.map_cons, List.zip_cons_cons]
      cases hleaf : e.isLeaf with
      | true =>
        have hnodes : argNodes (l, e) = some l := if_pos hleaf
        rw [hnodes, loadArgs]
        refine sat_then (hq.genLeaf hleaf hc) ?_
        rintro _ s₁ ⟨hrange, hfn, -, bytes, hem, hset⟩
        refine Run.sat_mono (ih hregs hnodup hlen' hps (hem.tables hc)) ?_ fun _ _ h => h
        rintro _ s' ⟨hrange', hfn', bytes', hem', hcode⟩
        refine ⟨hrange'.trans hrange, hfn'.trans hfn, _, hem.trans hem', fun K k vs hvs => ?_⟩
        cases vs with
        | nil => cases hvs
        | cons v vs =>
          obtain ⟨hv, htail⟩ := List.cons.inj hvs
          obtain rfl : v = none := by simpa [hleaf] using hv
          rw [World.argValues, World.lastValue, leafValue_eq hleaf]
          refine Does.bind (does_leaf hleaf hset (fun hk => hk List.mem_cons_self) (scratch_ne hr)
            fun x m m' hm hsets => ⟨hsets.value, ?_⟩) fun x => hframe x (hcode K k vs htail)
          refine (loaded_cons.mp hm).2.of_regs fun q hq => hsets.others q fun hmem => ?_
          exact hnotin (List.mem_singleton.mp hmem ▸ hq)
      | false =>
        have hnodes : argNodes (l, e) = none := if_neg (by rw [hleaf]; decide)
        rw [hnodes, loadArgs]
        refine Run.sat_mono (ih hregs hnodup hlen' hps hc) ?_ fun _ _ h => h
        rintro _ s' ⟨hrange, hfn, bytes, hem, hcode⟩
        refine ⟨hrange, hfn, bytes, hem, fun K k vs hvs => ?_⟩
        cases vs with
        | nil => cases hvs
        | cons v vs =>
          obtain ⟨hv, htail⟩ := List.cons.inj hvs
          obtain ⟨w, rfl⟩ : ∃ w, v = some w := Option.isSome_iff_exists.mp (by
            simpa [hleaf] using hv)
          rw [World.argValues, World.lastValue, Run.pure_bind']
          exact (hframe w (hcode K k vs htail)).of_pre fun m hm =>
            ⟨(loaded_cons.mp hm).1 w rfl, (loaded_cons.mp hm).2⟩

theorem InRegs.take {regs : List X64Reg} {xs : List Word} {m : Machine} (h : InRegs regs xs m)
    (hlen : xs.length ≤ regs.length) : (regs.take xs.length).map m.regs = xs := by
  induction xs generalizing regs with
  | nil => rfl
  | cons x xs ih =>
    cases regs with
    | nil => cases hlen
    | cons r regs =>
      obtain ⟨hr, hrest⟩ := inRegs_cons.mp h
      rw [List.length_cons, List.take_succ_cons, List.map_cons, hr,
        ih hrest (Nat.le_of_succ_le_succ hlen)]

theorem sysvArgRegs_scratch : ∀ r ∈ sysvArgRegs, r.calleeSaved = false := by decide

theorem sysvArgRegs_nodup : sysvArgRegs.Nodup := by decide

theorem r11_not_arg : Reg.r11 ∉ sysvArgRegs := by decide

/-- All arguments are in their registers. -/
theorem arguments_sat {ps : List (List Node × Expr)} {β : Type} {q : Gen β}
    {Q : β → GenState → Prop} (hsub : ∀ q ∈ ps, Subtree W ext L c rec q.1 q.2)
    (hlen : ps.length ≤ sysvArgRegs.length) (hc : SameTables c s.cup)
    (hs : s.range = ps.flatMap Prod.fst ++ rest)
    (hq : ∀ s', Works W ext False .rax (W.wordsAll (ps.map Prod.snd)) (fun _ => True)
      (W.evalFirst (ps.map Prod.snd) >>= fun vs => W.argValues (ps.map Prod.snd) vs)
      (fun xs m => xs.length = ps.length ∧ InRegs sysvArgRegs xs m) rest s s' →
        q.Sat s' Q GivesUp) :
    (callArgs rec ps.length >>= fun args => popArgs (sysvArgRegs.zip args) >>= fun _ =>
      loadArgs rec (sysvArgRegs.zip args) >>= fun _ => q).Sat s Q GivesUp := by
  refine sat_then (callArgs_pushes hsub hc hs) ?_
  rintro _ s₁ ⟨rfl, h₁⟩
  obtain ⟨bytes₁, hem₁, hcode₁⟩ := h₁.code
  refine sat_then (popArgs_pops W ext sysvArgRegs_scratch sysvArgRegs_nodup hlen)
    fun _ s₂ h₂ => ?_
  obtain ⟨bytes₂, hem₂, hcode₂⟩ := h₂.code
  refine sat_then (loadArgs_loads sysvArgRegs_scratch sysvArgRegs_nodup hlen hsub
    (hem₂.tables (hem₁.tables hc))) fun _ s₃ h₃ => ?_
  obtain ⟨bytes₃, hem₃, hcode₃⟩ := h₃.code
  have hback : Deeper 0 s s₂ := h₁.depth.trans h₂.depth (by omega)
  refine hq s₃ ⟨?_, ?_, hback.trans (.of_eq (by rw [h₃.fn])) rfl, _,
    (hem₁.trans hem₂).trans hem₃, fun k hk hsize hal => ?_⟩
  · rw [h₃.range, h₂.range, h₁.range]
  · rw [h₃.fn, h₂.busy, h₁.busy]
  · have hle := computed_le (W := W) (ps.map Prod.snd)
    have hback : k - 8 * computed (ps.map Prod.snd) + 8 * computed (ps.map Prod.snd) = k := by omega
    have harg : ∀ r, Kept False .rax s s₃ r → r ∉ sysvArgRegs := fun r hr hmem =>
      not_kept_scratch (sysvArgRegs_scratch r hmem) hr
    have hpushed : Does W.stack ext (Kept False .rax s s₃) k k (k - 8 * computed (ps.map Prod.snd)) bytes₁
        (fun _ => True) (W.evalFirst (ps.map Prod.snd)) fun vs m => Computed (ps.map Prod.snd) vs ∧
          W.stack.Words m.mem (k - 8 * computed (ps.map Prod.snd)) (stacked vs) :=
      (hcode₁ k hk hsize (hal not_false)).of_keep fun _ hr => hr.left (hem₂.trans hem₃).toAppended
    have hpopped : ∀ vs, Does W.stack ext (Kept False .rax s s₃) k
        (k - 8 * computed (ps.map Prod.snd)) k bytes₂
        (fun m => Computed (ps.map Prod.snd) vs ∧
          W.stack.Words m.mem (k - 8 * computed (ps.map Prod.snd)) (stacked vs))
        (pure () : Meaning σ Unit) fun _ m => Computed (ps.map Prod.snd) vs ∧
          Loaded sysvArgRegs vs m := fun vs => does_of_fact fun hvs => by
      have hpop := hcode₂ (k - 8 * computed (ps.map Prod.snd)) vs hvs (by omega)
      rw [hback] at hpop
      exact hpop.mono (fun r hr => ⟨harg r hr, hr.1⟩) (Nat.sub_le _ _) (fun _ h => h)
        fun _ _ h => ⟨hvs, h⟩
    refine (hpushed.then_code hpopped).bind fun vs => does_of_fact fun hvs => ?_
    exact (hcode₃ k k vs hvs).mono harg (Nat.le_refl k) (fun _ h => h) fun _ _ h =>
      ⟨by rw [h.1, List.length_map], h.2⟩

end Arguments

/-! ## The call -/

section Calls

variable {σ : Type} {W : World σ} {ext : Reg → Machine → σ → Option (Machine × σ)} {L : Layout}
  {c : CUPState} {rec : GenExpr} {s : GenState} {rest : List Node} {treg : X64Reg}
  {keep : Reg → Prop} {K k d : Nat} {p : Word} {xs : List Word}

/-- The code of a call with `d` pushed words. -/
def callBytes (d : Nat) (treg : X64Reg) : Bytes :=
  (if d % 2 = 1 then emitRspAdjust (-8) else []) ++ (emitXor32Rr .rax .rax ++ emitCallReg .r11) ++
    (if d % 2 = 1 then emitRspAdjust 8 else []) ++ emitMovRr treg .rax

theorem emitCall_eq (treg : X64Reg) (s : GenState) :
    emitCall treg s = .ok () { s with buf := s.buf ++ callBytes s.fn.depth treg } := by
  unfold emitCall callBytes
  rw [Run.get_bind]
  dsimp only
  split
  · simp only [emit, Run.modify_bind, Run.modify_apply, List.append_assoc]
  · simp only [emit, Run.modify_bind, Run.modify_apply, List.append_assoc, List.nil_append]

/-- The call with an aligned stack. -/
theorem does_callReg (hcalls : CallsAs W ext) (hroom : 8 * W.room ≤ k) (hsize : k ≤ W.stack.size)
    (hal : (W.stack.top k).toNat % 16 = 0) (hK : k ≤ K) (hxs : xs.length ≤ sysvArgRegs.length)
    (hkeep : ∀ r, keep r → r.calleeSaved = true) :
    Does W.stack ext keep K k k (emitXor32Rr .rax .rax ++ emitCallReg .r11)
      (fun m => m.regs .r11 = p ∧ InRegs sysvArgRegs xs m) (W.run p xs)
      fun v m => m.regs .rax = v := by
  have hcall : Does W.stack ext keep K k k (emitCallReg .r11)
      (fun m => m.regs .rax = 0 ∧ m.regs .r11 = p ∧ InRegs sysvArgRegs xs m) (W.run p xs)
      fun v m => m.regs .rax = v := by
    intro m M x v M' x' hm hp hf
    have hret : W.call p xs (M, x) = some (v, (M', x')) := by
      unfold World.run at hf
      split at hf
      · obtain ⟨rfl, rfl⟩ := Res.ok.inj hf
        assumption
      · cases hf
    rw [← hp.2.1] at hret
    obtain ⟨m', hext, hv, hm', hmem, hregs⟩ :=
      hcalls k m M x xs v M' x' hm hroom hsize hal hp.1 hxs (hp.2.2.take hxs) hret
    exact ⟨m', .of_run (code_callReg .r11) hext, hm', hmem.mono hK,
      fun r hr => hregs r (hkeep r hr), hv⟩
  refine hcall.sets_then (setsTo_xorSelf .rax) (fun q hq hk => ?_) (by decide)
    fun m m' hm hsets => ⟨hsets.value, ?_, ?_⟩
  · rw [List.mem_singleton.mp hq] at hk
    cases hkeep _ hk
  · rw [hsets.others _ (by decide), hm.1]
  · refine hm.2.of_regs fun q hq => hsets.others q fun hmem => ?_
    obtain rfl := List.mem_singleton.mp hmem
    revert hq
    decide

theorem does_rspAdjust {bytes : Bytes} {pre : Machine → Prop} {k' : Nat}
    {op : Alu} (hc : Code bytes [.aluImm op .rsp 8]) (hkeep : ¬ keep .rsp)
    (hop : ∀ m : Machine, m.regs .rsp = W.stack.top k →
      m.alu op .rsp (BitVec.ofInt 64 8) = { m.set .rsp (W.stack.top k') with flags := none })
    (hpre : ∀ m m', pre m → m'.mem = m.mem → (∀ q, q ≠ .rsp → m'.regs q = m.regs q) → pre m') :
    Does W.stack ext keep K k k' bytes pre (pure () : Meaning σ Unit) fun _ m => pre m :=
  does_move hc hkeep (fun m hm => ⟨none, congrArg some (hop m hm)⟩) hpre

/-- The call, with the stack as it is. -/
theorem does_call (hcalls : CallsAs W ext) (hroom : 8 * (1 + W.room) ≤ k) (hsize : k ≤ W.stack.size)
    (hal : Aligned W.stack k d) (hxs : xs.length ≤ sysvArgRegs.length)
    (hkeep : ∀ r, keep r → r.calleeSaved = true ∧ r ≠ .rsp) (ht : treg.calleeSaved = false) :
    Does W.stack ext keep k k k (callBytes d treg)
      (fun m => m.regs .r11 = p ∧ InRegs sysvArgRegs xs m) (W.run p xs)
      fun v m => m.regs treg = v := by
  have hsp : ¬ keep .rsp := fun h => (hkeep _ h).2 rfl
  have hsaved : ∀ r, keep r → r.calleeSaved = true := fun r hr => (hkeep r hr).1
  have hbody : Does W.stack ext keep k k k ((if d % 2 = 1 then emitRspAdjust (-8) else []) ++
      (emitXor32Rr .rax .rax ++ emitCallReg .r11) ++ (if d % 2 = 1 then emitRspAdjust 8 else []))
      (fun m => m.regs .r11 = p ∧ InRegs sysvArgRegs xs m) (W.run p xs)
      fun v m => m.regs .rax = v := by
    split
    · rename_i hodd
      have hal' : Aligned W.stack (k - 8) (d + 1) := hal.push (n := 1) (by omega) rfl
      have h16 : (W.stack.top (k - 8)).toNat % 16 = 0 := by
        unfold Aligned at hal'
        omega
      have hdown : Does W.stack ext keep k k (k - 8) (emitRspAdjust (-8))
          (fun m => m.regs .r11 = p ∧ InRegs sysvArgRegs xs m) (pure () : Meaning σ Unit)
          fun _ m => m.regs .r11 = p ∧ InRegs sysvArgRegs xs m := by
        refine does_rspAdjust code_rspAdjust_down hsp (fun m hm => ?_) fun m m' hm _ hregs => ⟨?_, ?_⟩
        · change { m.set .rsp (m.regs .rsp - 8) with flags := none } = _
          rw [hm, Stack.top_sub (by omega)]
        · rw [hregs _ (by decide), hm.1]
        · refine hm.2.of_regs fun q hq => hregs q ?_
          exact scratch_ne (sysvArgRegs_scratch q hq)
      have hup : ∀ v, Does W.stack ext keep k (k - 8) k (emitRspAdjust 8) (fun m => m.regs .rax = v)
          (pure () : Meaning σ Unit) fun _ m => m.regs .rax = v := fun v => by
        refine does_rspAdjust code_rspAdjust_up hsp (fun m hm => ?_) fun m m' hm _ hregs => ?_
        · change { m.set .rsp (m.regs .rsp + 8) with flags := none } = _
          rw [hm, Stack.top_add, Nat.sub_add_cancel (by omega)]
        · rw [hregs _ (by decide), hm]
      have hmid : Does W.stack ext keep k (k - 8) (k - 8) (emitXor32Rr .rax .rax ++ emitCallReg .r11)
          (fun m => m.regs .r11 = p ∧ InRegs sysvArgRegs xs m) (W.run p xs)
          fun v m => m.regs .rax = v :=
        does_callReg hcalls (by omega) (by omega) h16 (Nat.sub_le k 8) hxs hsaved
      exact (hdown.bind fun _ => hmid).then_code hup
    · rename_i heven
      have h16 : (W.stack.top k).toNat % 16 = 0 := by
        unfold Aligned at hal
        omega
      rw [List.nil_append, List.append_nil]
      exact does_callReg hcalls (by omega) hsize h16 (Nat.le_refl k) hxs hsaved
  refine hbody.then_sets (setsTo_movRr treg .rax) (fun q hq hk => ?_)
    (rsp_not_target (scratch_ne ht)) fun v m m' hm hsets => hsets.value.trans hm
  rw [List.mem_singleton.mp hq] at hk
  exact absurd ((hsaved _ hk).symm.trans ht) (by decide)

theorem Kept.saved {s s' : GenState} {r : X64Reg} (h : Kept False treg s s' r) :
    r.calleeSaved = true ∧ r ≠ .rsp := by
  obtain ⟨hsp, hr | hr⟩ := h
  · exact ⟨hr.1, hsp⟩
  · exact hr.1.elim

theorem straight_call (d : Nat) (treg : X64Reg) : Straight (callBytes d treg) := by
  have hcall : Straight (emitXor32Rr .rax .rax ++ emitCallReg .r11) :=
    .append (.of_code (code_xor32Rr .rax .rax) rfl) (.of_code (code_callReg .r11) rfl)
  have hmove := straight_movRr treg .rax
  unfold callBytes
  split
  · have hdown : Straight (emitRspAdjust (-8)) := .of_code code_rspAdjust_down rfl
    have hup : Straight (emitRspAdjust 8) := .of_code code_rspAdjust_up rfl
    exact ((hdown.append hcall).append hup).append hmove
  · exact ((Straight.nil.append hcall).append .nil).append hmove

/-- What ends in a call returns nothing where no call does. -/
theorem run_calm (hcalm : W.Calm) (p : Word) (xs : List Word) {x x' : Mem × σ} {v : Word} :
    W.run p xs x ≠ .ok v x' := by
  intro hok
  unfold World.run at hok
  rw [hcalm] at hok
  cases hok

variable {l : List Node} {f : Expr} {ps : List (List Node × Expr)} {loc : Loc}

/-- A callee that is a leaf is loaded behind the arguments. -/
theorem callLeaf_computes (hcalls : CallsAs W ext) (hleaf : f.isLeaf = true)
    (hf : Subtree W ext L c rec l f) (hsub : ∀ q ∈ ps, Subtree W ext L c rec q.1 q.2)
    (hlen : ps.length ≤ sysvArgRegs.length) (ht : treg.calleeSaved = false)
    (hc : SameTables c s.cup) (hs : s.range = ps.flatMap Prod.fst ++ rest) :
    (callArgs rec ps.length >>= fun args => popArgs (sysvArgRegs.zip args) >>= fun _ =>
      loadArgs rec (sysvArgRegs.zip args) >>= fun _ => genLeaf rec .r11 l >>= fun _ =>
        emitCall treg).Sat s
      (fun _ s' => s.buf.length < s'.buf.length ∧
        Works W ext False .rax (max (W.wordsAll (ps.map Prod.snd)) (1 + W.room)) (fun _ => True)
        (W.evalFirst (ps.map Prod.snd) >>= fun vs => W.argValues (ps.map Prod.snd) vs >>= fun xs =>
          W.eval true f >>= fun p => W.run p xs) (fun v m => m.regs treg = v) rest s s')
      GivesUp := by
  refine arguments_sat hsub hlen hc hs fun s₁ h₁ => ?_
  obtain ⟨bytes₁, hem₁, hcode₁⟩ := h₁.code
  refine sat_then (hf.genLeaf hleaf (hem₁.tables hc)) ?_
  rintro _ s₂ ⟨hrange, hfn, hgrows, bytes₂, hem₂, hset⟩
  rw [Run.sat_of_ok (emitCall_eq treg s₂)]
  have hem₃ : Emits s₂ { s₂ with buf := s₂.buf ++ callBytes s₂.fn.depth treg }
      (callBytes s₂.fn.depth treg) := .of_eq (straight_call s₂.fn.depth treg) rfl rfl rfl rfl rfl
  have hdepth : Deeper 0 s s₂ := h₁.depth.trans (.of_eq (by rw [hfn])) rfl
  refine ⟨(hem₁.length_le.trans_lt hgrows).trans_le hem₃.length_le, hrange.trans h₁.range,
    by rw [← h₁.busy, ← hfn], ⟨hdepth.depth, hdepth.bound⟩, _, (hem₁.trans hem₂).trans hem₃,
    fun k hk hsize hal => ?_⟩
  have hal₂ : Aligned W.stack k s₂.fn.depth := hdepth.aligned hal not_false
  have hargs : Does W.stack ext
      (Kept False .rax s { s₂ with buf := s₂.buf ++ callBytes s₂.fn.depth treg }) k k k
      bytes₁ (fun _ => True)
      (W.evalFirst (ps.map Prod.snd) >>= fun vs => W.argValues (ps.map Prod.snd) vs)
      fun xs m => xs.length = ps.length ∧ InRegs sysvArgRegs xs m :=
    (hcode₁ k (by omega) hsize hal).of_keep fun _ hr => hr.left (hem₂.trans hem₃).toAppended
  have hcallee : ∀ xs, Does W.stack ext
      (Kept False .rax s { s₂ with buf := s₂.buf ++ callBytes s₂.fn.depth treg }) k k k bytes₂
      (InRegs sysvArgRegs xs) (W.eval true f) fun p m => m.regs .r11 = p ∧ InRegs sysvArgRegs xs m :=
    fun xs => does_leaf hleaf hset (not_kept_scratch rfl) (scratch_ne rfl) fun p m m' hm hsets =>
      ⟨hsets.value, hm.of_regs fun q hq => hsets.others q fun hmem =>
        r11_not_arg (List.mem_singleton.mp hmem ▸ hq)⟩
  have hdoes := hargs.bind fun xs => does_of_fact fun hxs => (hcallee xs).bind fun p =>
    does_call hcalls (by omega) hsize hal₂ (by omega) (fun _ hr => hr.saved) ht
  simp only [Run.bind_assoc, List.append_assoc] at hdoes ⊢
  exact hdoes

/-- Any other one is computed and pushed before them. -/
theorem callTree_computes (hcalls : CallsAs W ext)
    (hsub : ∀ q ∈ ps, Subtree W ext L c rec q.1 q.2)
    (hlen : ps.length ≤ sysvArgRegs.length) (ht : treg.calleeSaved = false)
    (hc : SameTables c s.cup) (hs : s.range = ps.flatMap Prod.fst ++ rest) :
    (callArgs rec ps.length >>= fun args => popArgs (sysvArgRegs.zip args) >>= fun _ =>
      loadArgs rec (sysvArgRegs.zip args) >>= fun _ => emitPop .r11 >>= fun _ =>
        emitCall treg).Sat s
      (fun _ s' => s'.range = rest ∧ s'.fn.busy = s.fn.busy ∧ Deeper (-1) s s' ∧
        ∃ bytes, Emits s s' bytes ∧ ∀ k p,
          8 * max (W.wordsAll (ps.map Prod.snd)) W.room ≤ k → k + 8 ≤ W.stack.size →
          Aligned W.stack k s.fn.depth →
          Does W.stack ext (Kept False .rax s s') (k + 8) k (k + 8) bytes
            (fun m => W.stack.Words m.mem k [p])
            (W.evalFirst (ps.map Prod.snd) >>= fun vs => W.argValues (ps.map Prod.snd) vs >>=
              fun xs => W.run p xs) fun v m => m.regs treg = v) GivesUp := by
  choose d hd hpop using emitPop_ok .r11
  refine arguments_sat hsub hlen hc hs fun s₁ h₁ => ?_
  rw [Run.sat_bind, Run.sat_of_ok (hpop s₁), Run.sat_of_ok (emitCall_eq treg _)]
  have hdepth : Deeper (-1) s (popped s₁ .r11 (d s₁)) := h₁.depth.trans (hd s₁) (by omega)
  generalize d s₁ = d at hdepth ⊢
  obtain ⟨bytes₁, hem₁, hcode₁⟩ := h₁.code
  have hem₂ := emits_popped s₁ .r11 d
  have hrange : (popped s₁ .r11 d).range = rest := h₁.range
  have hbusy : (popped s₁ .r11 d).fn.busy = s.fn.busy := h₁.busy
  generalize popped s₁ .r11 d = s₂ at hdepth hem₂ hrange hbusy ⊢
  have hem₃ : Emits s₂ { s₂ with buf := s₂.buf ++ callBytes s₂.fn.depth treg }
      (callBytes s₂.fn.depth treg) := .of_eq (straight_call s₂.fn.depth treg) rfl rfl rfl rfl rfl
  refine ⟨hrange, hbusy, ⟨hdepth.depth, hdepth.bound⟩, _, hem₁.trans (hem₂.trans hem₃),
    fun k p hk hsize hal => ?_⟩
  have hal₂ : Aligned W.stack (k + 8) s₂.fn.depth := by
    have hd := hdepth.depth
    unfold Aligned at hal ⊢
    rw [top_mod] at hal ⊢
    omega
  -- the callee lies on the stack while the arguments are computed
  have hargs := ((hcode₁ k (by omega) (by omega) fun _ => hal).of_keep
    fun r (hr : Kept False .rax s _ r) => hr.left (hem₂.trans hem₃).toAppended).words k [p]
    (Nat.le_refl k) hsize
  have hcallee : ∀ xs, Does W.stack ext (Kept False .rax s
      { s₂ with buf := s₂.buf ++ callBytes s₂.fn.depth treg })
      (k + 8) k (k + 8) (popBytes .r11)
      (fun m => InRegs sysvArgRegs xs m ∧ W.stack.Words m.mem k [p]) (pure () : Meaning σ Unit)
      fun _ m => m.regs .r11 = p ∧ InRegs sysvArgRegs xs m := fun xs =>
    does_pop (code_pop .r11) (scratch_ne rfl) not_kept_rsp (not_kept_scratch rfl)
      fun m m' hm _ hpop hothers => ⟨hpop.trans hm.2.1, hm.1.of_regs fun q hq => by
        refine hothers q (scratch_ne (sysvArgRegs_scratch q hq)) ?_
        rintro rfl
        exact r11_not_arg hq⟩
  have hcall : ∀ xs : List Word, xs.length = ps.length → Does W.stack ext (Kept False .rax s
      { s₂ with buf := s₂.buf ++ callBytes s₂.fn.depth treg })
      (k + 8) k (k + 8) (popBytes .r11 ++ callBytes s₂.fn.depth treg)
      (fun m => InRegs sysvArgRegs xs m ∧ W.stack.Words m.mem k [p]) (W.run p xs)
      fun v m => m.regs treg = v := fun xs hxs =>
    (hcallee xs).bind fun _ => does_call hcalls (by omega) hsize hal₂ (by omega)
      (fun _ hr => Kept.saved hr) ht
  have hdoes := (hargs.mono (fun _ h => h) (Nat.le_add_right k 8) (fun m hm => ⟨trivial, hm⟩)
    fun _ _ h => h).bind fun xs =>
      (does_of_fact (hcall xs)).of_pre fun m hm => ⟨hm.1.1, hm.1.2, hm.2⟩
  rw [Run.bind_assoc] at hdoes
  exact hdoes

theorem callCase_computes (want : Bool) (hcalls : CallsAs W ext) (hf : Subtree W ext L c rec l f)
    (hsub : ∀ q ∈ ps, Subtree W ext L c rec q.1 q.2) (hcomma : loc.token = .tComma)
    (ht : treg.calleeSaved = false) (hc : SameTables c s.cup)
    (hs : s.range = l ++ (.tok loc :: .value ps.length :: (ps.flatMap Prod.fst ++ rest))) :
    (callCase rec treg).Sat s
      (fun _ s' => Evaluates W ext (W.words (.call f (ps.map Prod.snd)))
        (W.eval want (.call f (ps.map Prod.snd))) treg rest s s') GivesUp := by
  have hsize := hf.reads.leafSize (.tok loc :: .value ps.length :: (ps.flatMap Prod.fst ++ rest))
  unfold callCase
  rw [Run.sat_bind, Run.sat_get, hs, World.eval, World.words]
  dsimp only
  cases hleaf : f.isLeaf with
  | true =>
    have hpos := hf.reads.length_pos
    have hne : l.length ≠ 0 := by omega
    have hdrop : s.range.drop l.length =
        .tok loc :: .value ps.length :: (ps.flatMap Prod.fst ++ rest) := by
      rw [hs, List.drop_left]
    rw [if_pos hleaf] at hsize
    simp only [hsize, if_pos hne, List.take_left]
    rw [Run.sat_bind, skipNodes, Run.sat_modify, hdrop, sat_comma rfl hcomma]
    split
    · exact rfl
    · rename_i hle
      refine Run.sat_mono (callLeaf_computes hcalls hleaf hf hsub (Nat.le_of_not_lt hle) ht hc rfl)
        (fun _ s' h => ⟨?_, h.1⟩) fun _ _ h => h
      have hneed : max (W.wordsAll (ps.map Prod.snd)) (1 + W.room) ≤
          max (W.words f) (1 + max (W.wordsAll (ps.map Prod.snd)) (1 + W.room)) := by omega
      have hwork := (h.2.of_start (s := s) (.of_eq .nil (List.append_nil _).symm rfl rfl rfl rfl)
        rfl).of_need hneed
      rw [if_pos trivial, Run.pure_bind']
      simp only [World.lastValue, leafValue_eq hleaf]
      refine hwork.of_calls fun hcalm x v x' hok => ?_
      obtain ⟨vs, x₁, -, hok⟩ := Run.bind_eq_ok.mp hok
      obtain ⟨xs, x₂, -, hok⟩ := Run.bind_eq_ok.mp hok
      obtain ⟨p, x₃, -, hok⟩ := Run.bind_eq_ok.mp hok
      exact run_calm hcalm p xs hok
  | false =>
    rw [if_neg (by rw [hleaf]; decide)] at hsize
    simp only [hsize, if_neg (not_not.mpr (rfl : (0 : Nat) = 0))]
    refine single_push hf hc hs fun s₁ hgrows h₁ => ?_
    obtain ⟨bytes₁, hem₁, hcode₁⟩ := h₁.code
    rw [sat_comma h₁.range hcomma]
    split
    · exact rfl
    · rename_i hle
      refine Run.sat_mono (callTree_computes hcalls hsub (Nat.le_of_not_lt hle) ht
        (hem₁.tables hc) rfl) ?_ fun _ _ h => h
      rintro _ s' ⟨hrange, hbusy, hdepth, bytes₂, hem₂, hcode₂⟩
      have hem : Emits s₁ s' bytes₂ :=
        ⟨⟨hem₂.buf, hem₂.used, hem₂.cup, hem₂.returns, hem₂.reallocs⟩, hem₂.straight⟩
      have hdeeper : Deeper (-1) s₁ s' := ⟨hdepth.depth, hdepth.bound⟩
      refine ⟨Works.of_calls ⟨hrange, hbusy.trans h₁.busy, h₁.depth.trans hdeeper rfl, _,
        hem₁.trans hem, fun k hk hsize hal => ?_⟩ fun hcalm x v x' hok => ?_, ?_⟩
      · have hal₁ : Aligned W.stack (k - 8 * 1) s₁.fn.depth :=
          h₁.depth.push (hal not_false) (by omega)
        have hback : k - 8 + 8 = k := by omega
        have hleft : Does W.stack ext (Kept False .rax s s') k k (k - 8) bytes₁ (fun _ => True)
            (W.eval true f) fun v m => W.stack.Words m.mem (k - 8) [v] :=
          (hcode₁ k (by omega) hsize (hal not_false)).of_keep fun _ hr => hr.left hem.toAppended
        have hright : ∀ p, Does W.stack ext (Kept False .rax s s') k (k - 8) k bytes₂
            (fun m => W.stack.Words m.mem (k - 8) [p])
            (W.evalFirst (ps.map Prod.snd) >>= fun vs => W.argValues (ps.map Prod.snd) vs >>=
              fun xs => W.run p xs) fun v m => m.regs treg = v := fun p => by
          have hdoes := hcode₂ (k - 8) p (by omega) (by omega) hal₁
          rw [hback] at hdoes
          exact hdoes.of_keep fun _ hr => hr.right fun q hq => by rwa [h₁.busy]
        rw [if_neg (by decide)]
        simp only [Run.pure_bind', World.lastValue]
        exact hleft.bind hright
      · rw [if_neg (by decide)] at hok
        simp only [Run.pure_bind', World.lastValue] at hok
        obtain ⟨p, x₁, -, hok⟩ := Run.bind_eq_ok.mp hok
        obtain ⟨vs, x₂, -, hok⟩ := Run.bind_eq_ok.mp hok
        obtain ⟨xs, x₃, -, hok⟩ := Run.bind_eq_ok.mp hok
        exact run_calm hcalm p xs hok
      · exact hgrows.trans_le hem.length_le

end Calls

/-! ## Every expression -/

section Expressions

variable {σ : Type} {W : World σ} {ext : Reg → Machine → σ → Option (Machine × σ)} {L : Layout}
  {c : CUPState} {l : List Node} {e : Expr}

theorem length_le_flatMap {ps : List (List Node × Expr)} {q : List Node × Expr} (h : q ∈ ps) :
    q.1.length ≤ (ps.flatMap Prod.fst).length := by
  induction ps with
  | nil => cases h
  | cons p ps ih =>
    rw [List.flatMap_cons, List.length_append]
    rcases List.mem_cons.mp h with rfl | h
    · exact Nat.le_add_right _ _
    · exact (ih h).trans (Nat.le_add_left _ _)

theorem Reads.subtree (h : Reads L c l e)
    (ih : ∀ n, l.length ≤ n → Compiles W ext c (codegenExpr L (n + 1)) l e) {n : Nat}
    (hn : l.length < n) : Subtree W ext L c (codegenExpr L n) l e := by
  obtain ⟨n, rfl⟩ : ∃ m, n = m + 1 := ⟨n - 1, by omega⟩
  exact ⟨h, ih n (by omega), fun hleaf treg sreg s rest hc hs => h.leafRun hleaf hc hs⟩

/-- The code of a leaf computes it. -/
theorem Reads.leafCompiles (h : Reads L c l e) (hleaf : e.isLeaf = true) (n : Nat) :
    Compiles W ext c (codegenExpr L (n + 1)) l e := by
  intro treg sreg s rest ht hc hs
  have hrun : (codegenExpr L (n + 1) treg sreg).Sat s
      (fun r s' => r.1 = 0 ∧ LeafRun ext treg sreg.isSome e rest s s') fun _ _ => False :=
    h.leafRun hleaf hc hs
  refine Run.sat_mono hrun ?_ fun _ _ h => h.elim
  rintro r s' ⟨hr, hrange, hfn, hgrows, bytes, hem, hset⟩
  refine ⟨hr, ⟨hrange, by rw [hfn], .of_eq (by rw [hfn]), bytes, hem, fun k _ _ _ => ?_⟩, hgrows⟩
  exact does_leaf hleaf hset (not_kept_target ht) (scratch_ne ht) fun v m m' _ hsets => hsets.value

/-- Behind its token, a tree is compiled by the code of its case. -/
theorem compiles_case {α : Type} {loc : Loc} {more : List Node} {n : Nat}
    {x : X64Reg → Option X64Reg → Gen α}
    (hcase : ∀ treg sreg s rest, s.range = .tok loc :: rest → codegenExpr L (n + 1) treg sreg s =
      (x treg sreg >>= fun _ => pure (0, none)) { s with range := rest })
    (hx : ∀ treg sreg s rest, treg.calleeSaved = false → SameTables c s.cup →
      s.range = more ++ rest → (x treg sreg).Sat s
        (fun _ s' => Evaluates W ext (W.words e) (W.eval sreg.isSome e) treg rest s s') GivesUp) :
    Compiles W ext c (codegenExpr L (n + 1)) (.tok loc :: more) e := by
  intro treg sreg s rest ht hc hs
  have hsat : (x treg sreg >>= fun _ => pure ((0 : Nat), (none : Option Nat))).Sat
      { s with range := more ++ rest }
      (fun r s' => r.1 = 0 ∧ Evaluates W ext (W.words e) (W.eval sreg.isSome e) treg rest s s')
      GivesUp :=
    sat_then (hx treg sreg { s with range := more ++ rest } rest ht hc rfl) fun _ s' h =>
      ⟨rfl, h.of_start (.of_eq .nil (List.append_nil _).symm rfl rfl rfl rfl) rfl⟩
  unfold Run.Sat at hsat ⊢
  rw [hcase treg sreg s (more ++ rest) hs]
  exact hsat

theorem Reads.compiles (hcalls : CallsAs W ext) (h : Reads L c l e) :
    ∀ n, l.length ≤ n → Compiles W ext c (codegenExpr L (n + 1)) l e := by
  induction h with
  | number ht hv => exact fun n _ => (Reads.number ht hv).leafCompiles rfl n
  | string ht => exact fun n _ => (Reads.string ht).leafCompiles rfl n
  | var ht hv => exact fun n _ => (Reads.var ht hv).leafCompiles rfl n
  | this ht hv => exact fun n _ => (Reads.this ht hv).leafCompiles rfl n
  | address ht => exact fun n _ => (Reads.address ht).leafCompiles rfl n
  | @array loc loc' i ps ht hcomma hlen hps ih =>
    intro n hn
    simp only [List.length_cons] at hn
    have hsub : ∀ q ∈ ps, Subtree W ext L c (codegenExpr L n) q.1 q.2 := fun q hq => by
      have hle := length_le_flatMap hq
      exact (hps q hq).subtree (ih q hq) (by omega)
    refine compiles_case (x := fun treg _ => literalCase L (codegenExpr L n) treg) ?_ ?_
    · intro treg sreg s rest hs
      simp only [codegenExpr, Run.get_bind, Run.bind_of_ok (getNodeToken_ok hs), ht]
    · intro treg sreg s rest htreg hc hs
      rw [World.eval, World.words]
      exact literalCase_computes hsub hcomma hlen htreg hc hs
  | @index loc l l' b i ht hb hi ihb ihi =>
    intro n hn
    simp only [List.length_cons, List.length_append] at hn
    have hsub := hb.subtree ihb (n := n) (by have := hi.length_pos; omega)
    have hsub' := hi.subtree ihi (n := n) (by have := hb.length_pos; omega)
    refine compiles_case (x := fun treg sreg => subscriptCase (codegenExpr L n) treg sreg.isSome)
      ?_ ?_
    · intro treg sreg s rest hs
      simp only [codegenExpr, Run.get_bind, Run.bind_of_ok (getNodeToken_ok hs), ht]
    · intro treg sreg s rest htreg hc hs
      rw [List.append_assoc] at hs
      rw [World.eval, World.words]
      exact subscriptCase_computes sreg.isSome hsub hsub' htreg hc hs
  | @assign loc l l' d v ht hd hv ihd ihv =>
    intro n hn
    simp only [List.length_cons, List.length_append] at hn
    have hsub := hd.subtree ihd (n := n) (by have := hv.length_pos; omega)
    have hsub' := hv.subtree ihv (n := n) (by have := hd.length_pos; omega)
    refine compiles_case (x := fun treg _ => assignCase L (codegenExpr L n) treg) ?_ ?_
    · intro treg sreg s rest hs
      simp only [codegenExpr, Run.get_bind, Run.bind_of_ok (getNodeToken_ok hs), ht]
    · intro treg sreg s rest htreg hc hs
      rw [List.append_assoc] at hs
      rw [World.eval, World.words]
      exact assignCase_computes hsub hsub' htreg hc hs
  | @addAssign loc l l' d v ht hd hv ihd ihv =>
    intro n hn
    simp only [List.length_cons, List.length_append] at hn
    have hsub := hd.subtree ihd (n := n) (by have := hv.length_pos; omega)
    have hsub' := hv.subtree ihv (n := n) (by have := hd.length_pos; omega)
    refine compiles_case (x := fun treg _ => addAssignCase (codegenExpr L n) treg) ?_ ?_
    · intro treg sreg s rest hs
      simp only [codegenExpr, Run.get_bind, Run.bind_of_ok (getNodeToken_ok hs), ht]
    · intro treg sreg s rest htreg hc hs
      rw [List.append_assoc] at hs
      rw [World.eval, World.words]
      exact addAssignCase_computes hsub hsub' htreg hc hs
  | @binary loc op l l' a b ht hl hr ihl ihr =>
    intro n hn
    simp only [List.length_cons, List.length_append] at hn
    have hsub := hl.subtree ihl (n := n) (by have := hr.length_pos; omega)
    have hsub' := hr.subtree ihr (n := n) (by have := hl.length_pos; omega)
    refine compiles_case (x := fun treg _ => genBinary (codegenExpr L n) op.token treg false) ?_ ?_
    · intro treg sreg s rest hs
      cases op <;> simp only [BinOp.token] at ht <;>
        simp only [codegenExpr, Run.get_bind, Run.bind_of_ok (getNodeToken_ok hs), ht, BinOp.token]
    · intro treg sreg s rest htreg hc hs
      rw [List.append_assoc] at hs
      rw [World.eval, World.words]
      exact genBinary_computes op hsub hsub' htreg hc hs
  | @call loc loc' l f ps ht hcomma hf hps ihf ihps =>
    intro n hn
    simp only [List.length_cons, List.length_append] at hn
    have hsub := hf.subtree ihf (n := n) (by omega)
    have hsubs : ∀ q ∈ ps, Subtree W ext L c (codegenExpr L n) q.1 q.2 := fun q hq => by
      have hle := length_le_flatMap hq
      exact (hps q hq).subtree (ihps q hq) (by omega)
    refine compiles_case (x := fun treg _ => callCase (codegenExpr L n) treg) ?_ ?_
    · intro treg sreg s rest hs
      simp only [codegenExpr, Run.get_bind, Run.bind_of_ok (getNodeToken_ok hs), ht]
    · intro treg sreg s rest htreg hc hs
      rw [List.append_assoc] at hs
      exact callCase_computes sreg.isSome hcalls hsub hsubs hcomma htreg hc hs

/-- **The code of an expression computes its value.** From nodes that are read as `e`,
    `codegen_expr` takes these nodes and emits code that leaves the value of `e` in the target, or
    its address where that is asked for; else it has given up with the exit code 1. -/
theorem codegenExpr_computes {n : Nat} {treg : X64Reg} {sreg : Option X64Reg} {s : GenState}
    {rest : List Node} (hcalls : CallsAs W ext) (h : Reads L s.cup l e) (hs : s.range = l ++ rest)
    (hn : l.length < n) (ht : treg.calleeSaved = false) :
    (∀ r s', codegenExpr L n treg sreg s = .ok r s' → r.1 = 0 ∧
      Evaluates W ext (W.words e) (W.eval sreg.isSome e) treg rest s s') ∧
    ∀ stop s', codegenExpr L n treg sreg s = .stop stop s' → stop = .exit 1 := by
  obtain ⟨n, rfl⟩ : ∃ m, n = m + 1 := ⟨n - 1, by omega⟩
  have hsat := h.compiles hcalls n (by omega) treg sreg s rest ht ⟨s.cup.trace, rfl⟩ hs
  exact ⟨fun r s' hok => (Run.sat_of_ok hok).mp hsat, fun e s' hstop =>
    (Run.sat_of_stop hstop).mp hsat⟩

end Expressions

/-- A world with one function, of two arguments. -/
def adderWorld : World Unit where
  stack := ⟨65536, 4096, by decide⟩
  room := 0
  call _ args s := if args.length = 2 then some (args.foldl BitVec.add 0#64, s) else none

/-- The function. -/
def adderExt (_ : Reg) (m : Machine) (x : Unit) : Option (Machine × Unit) :=
  some (m.set .rax (m.regs .rdi + m.regs .rsi), x)

theorem adder_callsAs : CallsAs adderWorld adderExt := by
  intro k m M x args v M' x' hm _ _ _ _ _ hargs hcall
  have hlen : args.length = 2 := by
    by_contra hne
    rw [adderWorld] at hcall
    dsimp only at hcall
    rw [if_neg hne] at hcall
    cases hcall
  have hret : some (args.foldl BitVec.add 0#64, (M, x)) = some (v, (M', x')) := (if_pos hlen).symm.trans hcall
  cases hret
  rw [hlen] at hargs
  refine ⟨_, rfl, ?_, ⟨?_, hm.agree⟩, .refl, fun r hr => ?_⟩
  · rw [Machine.set_regs_self, ← hargs]
    exact congrArg (· + m.regs .rsi) (BitVec.zero_add (m.regs .rdi)).symm
  · exact (Machine.set_regs_of_ne (by decide)).trans hm.top
  · refine Machine.set_regs_of_ne ?_
    rintro rfl
    cases hr

/-- The nodes of `f(1, 2 * 3)`, with the function at the address 8. -/
def callOfAdder : List Node :=
  [.tok ⟨.tCall, 1, 1⟩, .tok ⟨.nAddress, 1, 1⟩, .value 8, .tok ⟨.tComma, 1, 1⟩, .value 2,
    .tok ⟨.tNumber, 1, 1⟩, .value 1, .tok ⟨.tMul, 1, 1⟩, .tok ⟨.tNumber, 1, 1⟩, .value 2,
    .tok ⟨.tNumber, 1, 1⟩, .value 3]

def adderTree : Expr :=
  .call (.place 8) [.const 1, .binary .mul (.const 2) (.const 3)]

theorem reads_callOfAdder (L : Layout) (c : CUPState) : Reads L c callOfAdder adderTree := by
  have hargs : ∀ q ∈ ([([.tok ⟨.tNumber, 1, 1⟩, .value 1], .const 1), ([.tok ⟨.tMul, 1, 1⟩,
      .tok ⟨.tNumber, 1, 1⟩, .value 2, .tok ⟨.tNumber, 1, 1⟩, .value 3],
        .binary .mul (.const 2) (.const 3))] : List (List Node × Expr)), Reads L c q.1 q.2 := by
    intro q hq
    simp only [List.mem_cons, List.not_mem_nil, or_false] at hq
    rcases hq with rfl | rfl
    · exact .number rfl (by decide)
    · exact .binary rfl (.number rfl (by decide)) (.number rfl (by decide))
  exact .call rfl rfl (.address rfl) hargs

def adderGen : GenState where
  cup := {}
  range := callOfAdder

/-- The machine in front of the call, with a stack that is free. -/
def adderMachine : Machine where
  regs := fun r => if r = .rsp then 69632 else 0
  mem := fun _ => 0

theorem codegenExpr_computes_adder : ∃ s' m',
    codegenExpr ⟨4096, 8192⟩ 13 .rax (some .rax) adderGen = .ok (0, none) s' ∧
      Through adderExt s'.buf adderMachine () m' () ∧ m'.regs .rax = 7 ∧
      m'.regs .rsp = 69632 := by
  have hok : codegenExpr ⟨4096, 8192⟩ 13 .rax (some .rax) adderGen =
      .ok (0, none) (codegenExpr ⟨4096, 8192⟩ 13 .rax (some .rax) adderGen).state := by
    decide +kernel
  have hrange : adderGen.range = callOfAdder ++ [] := rfl
  obtain ⟨-, hwork⟩ := (codegenExpr_computes adder_callsAs
    (reads_callOfAdder ⟨4096, 8192⟩ adderGen.cup) hrange (by decide) rfl).1 _ _ hok
  obtain ⟨bytes, hem, hcode⟩ := hwork.code
  have heval : adderWorld.eval true adderTree (adderMachine.mem, ()) =
      .ok 7 (adderMachine.mem, ()) := by
    simp only [adderTree, World.eval, World.evalFirst, World.lastValue,
      World.leafValue, Expr.isLeaf, Run.pure_bind']
    rfl
  have hneed : adderWorld.words adderTree = 3 := by
    simp only [adderTree, World.words, World.wordsAll]
    rfl
  have hal : Aligned adderWorld.stack 4096 adderGen.fn.depth := by
    unfold Aligned
    decide
  rw [hneed] at hcode
  obtain ⟨m', hrun, hm', -, -, hvalue⟩ := hcode 4096 (by decide) (Nat.le_refl _) (fun _ => hal)
    adderMachine adderMachine.mem () 7 adderMachine.mem () ⟨rfl, fun _ _ => rfl⟩ trivial heval
  refine ⟨_, m', hok, ?_, hvalue, hm'.top⟩
  rw [hem.buf]
  exact hrun

end Cup
