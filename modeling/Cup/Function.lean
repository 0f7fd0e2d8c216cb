/-
  The code of a function (`codegen_func`, `src/codegen/x64codegen.c`).

  A call stores the arguments into the variables of the parameters and executes the body
  (`World.runFunction`). The conditions are those of an expression (`codegenExpr_computes`), with at
  most 6 parameters and no definition in the body.

  Proved:
  * `codegenFunc_implements`: the code that `codegen_func` writes for a sound body does what the
    reference does, from a call up to its `ret`, and hands back the stack and the registers.
  * `codegenFunc_overshoots`: where the body is not sound, this is so of the calls that give a
    value; the others end up 5 bytes behind the start of the epilogue.
-/
import Cup.Execution
import Cup.Frame

namespace Cup

open Lib (Stop Run Res)
open Lib.X64

/-! ## Parameters -/

namespace World

variable {σ : Type} (W : World σ)

/-- The arguments are stored at the addresses of the parameters. -/
def enter : List Word → List Word → Meaning σ Unit
  | a :: as, v :: vs => W.stack.write a v >>= fun _ => enter as vs
  | _, _ => pure ()

/-- A function is called, its body executed to the depth `n`. -/
def runFunction (n : Nat) (params : List Word) (body : Stmt) (args : List Word) :
    Meaning σ (Option Word) :=
  W.enter params args >>= fun _ => W.exec n body

end World

/-- The nodes of a function: the list of its parameters, unless it has none, and the body. -/
inductive ReadsFunction (L : Layout) (c : CUPState) : List Node → List Word → Stmt → Prop where
  | plain {c' : CUPState} {l : List Node} {body : Stmt} : ReadsBody L c l [body] c' →
    ReadsFunction L c l [] body
  | params {c' : CUPState} {loc : Loc} {l : List Node} {ps : List (List Node × Word)}
    {body : Stmt} : loc.token = .tComma → ps ≠ [] → (∀ p ∈ ps, Reads L c p.1 (.place p.2)) →
    ReadsBody L c l [body] c' →
    ReadsFunction L c (.tok loc :: .value ps.length :: (ps.flatMap Prod.fst ++ l))
      (ps.map Prod.snd) body

section Parameters

variable {σ : Type} {W : World σ} {ext : Reg → Machine → σ → Option (Machine × σ)} {L : Layout}
  {c c' : CUPState} {s s' : GenState} {l rest : List Node} {body : Stmt} {n : Nat}

/-- The registers have the arguments. -/
def Passed (regs : List X64Reg) (args : List Word) (m : Machine) : Prop :=
  (regs.take args.length).map m.regs = args

theorem passed_cons {r : X64Reg} {regs : List X64Reg} {v : Word} {vs : List Word} {m : Machine} :
    Passed (r :: regs) (v :: vs) m ↔ m.regs r = v ∧ Passed regs vs m := by
  unfold Passed
  rw [List.length_cons, List.take_succ_cons, List.map_cons, List.cons_eq_cons]

theorem Passed.of_regs {regs : List X64Reg} {args : List Word} {m m' : Machine}
    (h : Passed regs args m) (hm : ∀ r ∈ regs, m'.regs r = m.regs r) : Passed regs args m' :=
  (List.map_congr_left fun r hr => hm r (List.mem_of_mem_take hr)).trans h

/-- A parameter: its address is loaded, and the register stored there. -/
theorem does_param {keep : Reg → Prop} {k : Nat} {r : X64Reg} {a v : Word} {b b' : Bytes}
    {regs : List X64Reg} {vs : List Word} {f : Meaning σ Unit}
    (hset : SetsTo ext b [.rax] .rax fun _ => a) (hkeep : ¬ keep .rax)
    (hrax : ∀ q ∈ r :: regs, q ≠ .rax)
    (h : Does W.stack ext keep k k k b' (Passed regs vs) f fun _ _ => True) :
    Does W.stack ext keep k k k (b ++ emitStore .rax 0 r ++ b') (Passed (r :: regs) (v :: vs))
      (W.stack.write a v >>= fun _ => f) fun _ _ => True := by
  have hstore : Does W.stack ext keep k k k (emitStore .rax 0 r)
      (fun m => m.regs .rax = a ∧ Passed (r :: regs) (v :: vs) m) (W.stack.write a v)
      fun _ m => Passed regs vs m := by
    refine does_write (code_store int32_zero) (fun m hm => ⟨_, rfl, rfl, ?_⟩)
      fun m m' hm hregs _ => ?_
    · change m.mem.store (m.addr .rax 0) (m.regs r) = m.mem.store a v
      rw [Machine.addr_zero, hm.1, (passed_cons.mp hm.2).1]
    · exact (passed_cons.mp hm.2).2.of_regs fun q _ => by rw [hregs]
  rw [List.append_assoc]
  refine Does.sets_then hset (hstore.bind fun _ => h) (fun q hq => ?_) (by decide)
    fun m m' hm hsets => ⟨hsets.value, hm.of_regs fun q hq => ?_⟩
  · rw [List.mem_singleton.mp hq]
    exact hkeep
  · exact hsets.others q fun hmem => hrax q hq (List.mem_singleton.mp hmem)

/-- Code was emitted that stores the registers at the addresses of the parameters. -/
structure Stores (W : World σ) (ext : Reg → Machine → σ → Option (Machine × σ))
    (regs : List X64Reg) (params : List Word) (rest : List Node) (s s' : GenState) : Prop where
  range : s'.range = rest
  fn : s'.fn = s.fn
  code : ∃ bytes, Emits s s' bytes ∧ ∀ keep k args, ¬ keep .rax → args.length = params.length →
    Does W.stack ext keep k k k bytes (Passed regs args) (W.enter params args) fun _ _ => True

theorem storeParams_stores {regs : List X64Reg} {ps : List (List Node × Word)}
    (hps : ∀ p ∈ ps, Reads L c p.1 (.place p.2)) (hlen : ps.length ≤ regs.length)
    (hrax : ∀ r ∈ regs, r ≠ .rax) (hc : SameTables c s.cup)
    (hs : s.range = ps.flatMap Prod.fst ++ rest) :
    (storeParams (codegenExpr L (n + 1)) regs ps.length).Sat s
      (fun _ s' => Stores W ext regs (ps.map Prod.snd) rest s s') fun _ _ => False := by
  induction ps generalizing regs s with
  | nil =>
    have hnil : storeParams (codegenExpr L (n + 1)) regs 0 = pure () := by
      cases regs with
      | nil => rfl
      | cons r regs => rfl
    rw [List.length_nil, hnil]
    refine ⟨hs, rfl, [], .of_eq .nil (List.append_nil _).symm rfl rfl rfl rfl,
      fun keep k args _ _ => ?_⟩
    rw [List.map_nil, World.enter]
    · exact does_pure fun _ _ => trivial
    · rintro _ _ _ _ ⟨⟩
  | cons p ps ih =>
    obtain ⟨l, a⟩ := p
    obtain ⟨hp, hps⟩ := List.forall_mem_cons.mp hps
    cases regs with
    | nil => exact absurd hlen (Nat.not_succ_le_zero _)
    | cons r regs =>
      rw [List.flatMap_cons, List.append_assoc] at hs
      rw [List.length_cons, storeParams]
      have hleaf : (codegenExpr L (n + 1) .rax none).Sat s
          (fun r s' => r.1 = 0 ∧ LeafRun ext .rax false (.place a) (ps.flatMap Prod.fst ++ rest) s s')
          fun _ _ => False := hp.leafRun rfl hc hs
      refine sat_then hleaf ?_
      rintro _ s₁ ⟨-, hrange₁, hfn₁, -, bytes₁, hem₁, hset⟩
      rw [Run.sat_bind, emit, Run.sat_modify]
      have hstore : Emits s₁ { s₁ with buf := s₁.buf ++ emitStore .rax 0 r } (emitStore .rax 0 r) :=
        .of_eq (straight_store .rax r) rfl rfl rfl rfl rfl
      have hem := hem₁.trans hstore
      refine Run.sat_mono (ih hps (Nat.le_of_succ_le_succ hlen)
        (fun q hq => hrax q (List.mem_cons_of_mem _ hq)) (hem.tables hc) hrange₁)
        (fun _ s' h => ?_) fun _ _ h => h
      obtain ⟨bytes, hem', hcode⟩ := h.code
      refine ⟨h.range, h.fn.trans hfn₁, _, hem.trans hem', fun keep k args hkeep hargs => ?_⟩
      cases args with
      | nil => cases hargs
      | cons v vs =>
        rw [List.map_cons, World.enter]
        exact does_param hset hkeep hrax (hcode keep k vs hkeep (Nat.succ.inj hargs))

/-- The bytes store the arguments, and the chunks behind them are the code of the body. -/
structure BodyCode (W : World σ) (ext : Reg → Machine → σ → Option (Machine × σ))
    (keep : Reg → Prop) (depth : Nat) (params : List Word) (body : Stmt) (bytes : Bytes)
    (cs : List Chunk) : Prop where
  straight : Straight bytes
  laid : Laid [body] cs
  does : ∀ k, 8 * W.stmtWords body ≤ k → k ≤ W.stack.size → Aligned W.stack k depth →
    (∀ args, args.length = params.length → Does W.stack ext keep k k k bytes
      (Passed sysvArgRegs args) (W.enter params args) fun _ _ => True) ∧
    CodeOf W ext keep k [body] cs

/-- The trees of a function were taken, and their code was emitted. -/
structure WritesTrees (W : World σ) (ext : Reg → Machine → σ → Option (Machine × σ))
    (params : List Word) (body : Stmt) (rest : List Node) (s s' : GenState) : Prop where
  range : s'.range = rest
  code : ∃ bytes cs, EmitsChunks s s' (.code bytes :: cs) ∧
    BodyCode W ext (Kept False .rax s s') s.fn.depth params body bytes cs

/-- The body behind the parameters. -/
theorem Stores.writes {params : List Word} {s₁ : GenState} (hcalls : CallsAs W ext)
    (h : Stores W ext sysvArgRegs params (l ++ rest) s s₁) (hc : SameTables c s.cup)
    (hbody : ReadsBody L c l [body] c') (hn : l.length < n) {i : Nat} (hi : l.length ≤ i) :
    (statements (codegenExpr L n) i 1).Sat s₁
      (fun _ s' => WritesTrees W ext params body rest s s') GivesUp := by
  obtain ⟨bytes, hem, hdoes⟩ := h.code
  refine Run.sat_mono ((hbody.compiles hcalls).single hn hi (hem.tables hc) h.range)
    (fun _ s' h' => ?_) fun _ _ h => h
  obtain ⟨cs, hem', hlaid, hcode⟩ := h'.code
  refine ⟨h'.range, bytes, cs, hem.chunk.trans hem', hem.straight, hlaid,
    fun k hk hsize hal => ⟨fun args hargs => ?_, ?_⟩⟩
  · exact hdoes _ k args (not_kept_scratch rfl) hargs
  · have hwords : W.bodyWords [body] = W.stmtWords body := by
      rw [World.bodyWords, World.bodyWords, Nat.max_zero]
    rw [hwords] at hcode
    rw [← h.fn] at hal
    refine (hcode k hk hsize hal).of_keep fun r hr => hr.mono ?_ fun _ hu => hu
    rw [h.fn]
    exact fun _ hb => hb

theorem functionTrees_writes {params : List Word} {i : Nat} (hcalls : CallsAs W ext)
    (h : ReadsFunction L c l params body) (hparams : params.length ≤ sysvArgRegs.length)
    (hc : SameTables c s.cup) (hs : s.range = l ++ rest) (hn : l.length < n) (hi : l.length ≤ i) :
    (functionTrees (codegenExpr L n) i params.length).Sat s
      (fun _ s' => WritesTrees W ext params body rest s s') GivesUp := by
  obtain ⟨n, rfl⟩ : ∃ j, n = j + 1 := ⟨n - 1, by omega⟩
  cases h with
  | plain hbody =>
    rw [functionTrees, if_neg (not_not.mpr List.length_nil)]
    have hstores : Stores W ext sysvArgRegs [] (l ++ rest) s s := by
      refine ⟨hs, rfl, [], .of_eq .nil (List.append_nil _).symm rfl rfl rfl rfl,
      fun keep k args _ _ => ?_⟩
      rw [World.enter]
      · exact does_pure fun _ _ => trivial
      · rintro _ _ _ _ ⟨⟩
    exact hstores.writes hcalls hc hbody hn hi
  | @params c' loc l ps _ hcomma hne hps hbody =>
    simp only [List.length_cons, List.length_append] at hn hi
    simp only [List.cons_append, List.append_assoc] at hs
    rw [List.length_map] at hparams ⊢
    have hzero : ps.length ≠ 0 := fun h => hne (List.length_eq_zero_iff.mp h)
    have hvalue : getNodeValue { s with
        range := .value ps.length :: (ps.flatMap Prod.fst ++ (l ++ rest)) } = .ok _ _ :=
      getNodeValue_ok rfl
    have hlist : codegenExpr L (n + 1) .rax none s = .ok (ps.length, none)
        { s with range := ps.flatMap Prod.fst ++ (l ++ rest) } := by
      simp only [codegenExpr, Run.get_bind, Run.bind_of_ok (getNodeToken_ok hs), hcomma]
      rw [Run.bind_of_ok hvalue]
      rfl
    rw [functionTrees, if_pos hzero, Run.sat_bind, Run.sat_of_ok hlist]
    dsimp only
    rw [if_neg (not_not.mpr rfl)]
    have hstores : (storeParams (codegenExpr L (n + 1)) sysvArgRegs ps.length).Sat
        { s with range := ps.flatMap Prod.fst ++ (l ++ rest) } (fun _ s' =>
          Stores W ext sysvArgRegs (ps.map Prod.snd) (l ++ rest) _ s') fun _ _ => False :=
      storeParams_stores hps hparams (by decide) hc rfl
    refine sat_then (Run.sat_mono hstores (fun _ _ h => h) fun _ _ h => h.elim) fun _ s₁ h₁ => ?_
    refine Run.sat_mono (h₁.writes hcalls hc hbody (by omega) (by omega)) (fun _ s' h => ?_)
      fun _ _ h => h
    obtain ⟨bytes, cs, hem, hcode⟩ := h.code
    exact ⟨h.range, bytes, cs, ⟨hem.buf, hem.returns, hem.used, hem.reallocs⟩,
      hcode.straight, hcode.laid, hcode.does⟩

end Parameters

/-! ## Calls -/

/-- A call with `k` free bytes of stack: the stack pointer is 8 behind a multiple of 16, and the
    arguments are in their registers. -/
structure Called (S : Stack) (need count k : Nat) (m : Machine) (M : Mem) (args : List Word) :
    Prop where
  step : InStep S k m M
  room : 8 * need ≤ k
  size : k ≤ S.size
  aligned : (S.top k).toNat % 16 = 8
  count : args.length = count
  passed : Passed sysvArgRegs args m

/-- Behind the body, in the frame of a call at `m`. -/
structure InFrame (S : Stack) (k : Nat) (used : BitVec 16) (r : Option Word) (m m' : Machine)
    (M' : Mem) : Prop where
  step : InStep S (k - 8 - 8 * frameWords used) m' M'
  words : S.Keeps k m.mem m'.mem
  frame : Framed S k used m m'
  saved : ∀ q, q.calleeSaved = true → q ≠ .rsp → q ≠ .rbp → hasReg used q = false →
    m'.regs q = m.regs q
  value : ∀ v, r = some v → m'.regs .rax = v

/-- In front of the `ret`, the stack, the words on it and the registers of the caller are as at the
    call at `m`; a value is in `rax`. -/
structure Returned (S : Stack) (k : Nat) (r : Option Word) (m m' : Machine) (M' : Mem) : Prop where
  step : InStep S k m' M'
  words : S.Keeps k m.mem m'.mem
  saved : ∀ q, q.calleeSaved = true → m'.regs q = m.regs q
  value : ∀ v, r = some v → m'.regs .rax = v

section Calls

variable {σ : Type} {W : World σ} {ext : Reg → Machine → σ → Option (Machine × σ)} {S : Stack}
  {s s' : GenState} {params args : List Word} {body : Stmt} {i k need count : Nat}
  {used : BitVec 16} {bytes : Bytes} {cs : List Chunk} {m m₁ : Machine} {M M' : Mem} {x x' : σ}
  {r : Option Word} {q : X64Reg}

theorem InFrame.epilogue (h : InFrame S k used r m m₁ M') (htop : m.regs .rsp = S.top k)
    (hk : 56 ≤ k) : ∃ m', Through ext (leaveBytes used) m₁ x' m' x' ∧ Returned S k r m m' M' := by
  obtain ⟨m', hrun, hmem, hsp, hbp, hsaved, hregs⟩ := epilogue_through ext x' h.frame hk
  have hrax : m'.regs .rax = m₁.regs .rax :=
    hregs .rax (by decide) (by decide) fun slot hslot _ => (saveSlots_saved hslot).2.2
  refine ⟨m', hrun, ⟨hsp, ?_⟩, ?_, fun q hq => ?_, fun v hv => hrax.trans (h.value v hv)⟩
  · rw [hmem]
    exact h.step.agree
  · rw [hmem]
    exact h.words
  · rcases calleeSaved_cases hq with rfl | rfl | ⟨slot, hslot, rfl⟩
    · rw [hsp, htop]
    · exact hbp
    · obtain ⟨hrsp, hrbp, -⟩ := saveSlots_saved hslot
      by_cases hu : hasReg used slot.1 = true
      · exact hsaved slot hslot hu
      · rw [hregs slot.1 hrsp hrbp fun slot' _ hu' he => hu (he ▸ hu'),
          h.saved slot.1 hq hrsp hrbp (Bool.eq_false_iff.mpr hu)]

/-- The registers that a body hands back; the others are in the frame. -/
def BodyKept (used : BitVec 16) (q : X64Reg) : Prop :=
  q.calleeSaved = true ∧ q ≠ .rsp ∧ (q = .rbp ∨ hasReg used q = false)

theorem BodyKept.kept (h : BodyKept s'.fn.csUsed q) : Kept False .rax s s' q :=
  ⟨h.2.1, .inl ⟨h.1, h.2.2.imp_right .inr⟩⟩

theorem BodyCode.of_keep {keep keep' : Reg → Prop} {depth : Nat}
    (h : BodyCode W ext keep depth params body bytes cs) (hkeep : ∀ q, keep' q → keep q) :
    BodyCode W ext keep' depth params body bytes cs where
  straight := h.straight
  laid := h.laid
  does k hk hsize hal := ⟨fun args hargs => ((h.does k hk hsize hal).1 args hargs).of_keep hkeep,
    (h.does k hk hsize hal).2.of_keep hkeep⟩

/-- Through the prologue, the arguments and the body: with a value to their end, and without one
    to where this was before a return was dropped. -/
theorem BodyCode.runs (hcode : BodyCode W ext (BodyKept used) 0 params body bytes cs)
    (hrange : Chunk.InRange (Chunk.size (Chunk.dropped cs)) (Chunk.dropped cs))
    (hcall : Called W.stack (7 + W.stmtWords body) params.length k m M args)
    (hf : W.runFunction i params body args (M, x) = .ok r (M', x')) :
    ∃ m', Reaches ext (prologueBytes used ++ (bytes ++
        Chunk.fill (Chunk.size (Chunk.dropped cs)) (Chunk.dropped cs))) m x
        ((prologueBytes used ++ bytes).length +
          r.elim (Chunk.size cs) fun _ => Chunk.size (Chunk.dropped cs)) m' x' ∧
      InFrame W.stack k used r m m' M' := by
  have hroom := hcall.room
  have hsize := hcall.size
  have hk : 56 ≤ k := by omega
  have hframe : frameWords used ≤ 6 ∧ frameWords used % 2 = 0 := by
    unfold frameWords
    split
    · decide
    · decide
  obtain ⟨m₁, hrun₁, hm₁, hwords₁, hframed, hregs₁⟩ :=
    prologue_through ext used x hcall.step hk hsize
  have hal : Aligned W.stack (k - 8 - 8 * frameWords used) 0 := by
    have haligned := hcall.aligned
    rw [top_mod] at haligned
    rw [Aligned, top_mod]
    omega
  obtain ⟨henter, hbody⟩ := hcode.does (k - 8 - 8 * frameWords used) (by omega) (by omega) hal
  have hpassed : Passed sysvArgRegs args m₁ := by
    refine hcall.passed.of_regs fun q hq => ?_
    have hscratch : q ≠ .rax ∧ q ≠ .rbp ∧ q ≠ .rsp := by
      revert q
      decide
    exact hregs₁ q hscratch.1 hscratch.2.1 hscratch.2.2
  -- the arguments, then the body
  obtain ⟨u, ⟨M₂, x₂⟩, hf₁, hf₂⟩ := Run.bind_eq_ok.mp hf
  obtain ⟨m₂, hrun₂, hm₂, hwords₂, hregs₂, -⟩ :=
    henter args hcall.count m₁ M x u M₂ x₂ hm₁ hpassed hf₁
  have hflows := hbody.ends i _ rfl hrange
  rw [World.execAll_single] at hflows
  obtain ⟨m₃, hrun₃, hstays₃, hvalue⟩ := hflows m₂ M₂ x₂ r M' x' hm₂ hf₂
  have hkept : ∀ q, BodyKept used q → m₃.regs q = m₁.regs q := fun q hq =>
    (hstays₃.regs q hq).trans (hregs₂ q hq)
  have hmem : W.stack.Keeps (k - 8 - 8 * frameWords used) m₁.mem m₃.mem :=
    hwords₂.trans hstays₃.words
  have hrun := Reaches.right (hrun₁.append hrun₂) hrun₃
  rw [List.append_assoc] at hrun
  refine ⟨m₃, hrun, hstays₃.step, hwords₁.trans (hmem.mono (by omega)), ?_, ?_, hvalue⟩
  · exact hframed.keeps (hkept .rbp ⟨rfl, by decide, .inl rfl⟩) hmem hk hsize
  · intro q hq hsp hbp hu
    have hrax : q ≠ .rax := by
      rintro rfl
      cases hq
    rw [hkept q ⟨hq, hsp, .inr hu⟩, hregs₁ q hrax hbp hsp]

/-- At the end of the body, a call goes on through the epilogue. -/
theorem BodyCode.returned (hcode : BodyCode W ext (BodyKept used) 0 params body bytes cs)
    (hrange : Chunk.InRange (Chunk.size (Chunk.dropped cs)) (Chunk.dropped cs))
    (hcall : Called W.stack (7 + W.stmtWords body) params.length k m M args)
    (hf : W.runFunction i params body args (M, x) = .ok r (M', x'))
    (hend : r = none → Chunk.size cs = Chunk.size (Chunk.dropped cs)) :
    ∃ m', Through ext (prologueBytes used ++ (bytes ++
        Chunk.fill (Chunk.size (Chunk.dropped cs)) (Chunk.dropped cs)) ++ leaveBytes used)
        m x m' x' ∧ Returned W.stack k r m m' M' := by
  have hroom := hcall.room
  obtain ⟨m₁, hrun, hframe⟩ := hcode.runs hrange hcall hf
  have hoff : (r.elim (Chunk.size cs) fun _ => Chunk.size (Chunk.dropped cs)) =
      Chunk.size (Chunk.dropped cs) := by
    cases r with
    | none => exact hend rfl
    | some v => rfl
  have hlen : (prologueBytes used ++ bytes).length + Chunk.size (Chunk.dropped cs) =
      (prologueBytes used ++ (bytes ++
        Chunk.fill (Chunk.size (Chunk.dropped cs)) (Chunk.dropped cs))).length := by
    simp only [List.length_append, Chunk.fill_length, Nat.add_assoc]
  rw [hoff, hlen] at hrun
  obtain ⟨m', hleave, hreturned⟩ := hframe.epilogue hcall.step.top (by omega)
  exact ⟨m', hrun.through.append hleave, hreturned⟩

/-- From a sound body every call gets there. -/
theorem BodyCode.implements (hcode : BodyCode W ext (BodyKept used) 0 params body bytes cs)
    (hrange : Chunk.InRange (Chunk.size (Chunk.dropped cs)) (Chunk.dropped cs))
    (hsound : body.sound = true)
    (hcall : Called W.stack (7 + W.stmtWords body) params.length k m M args)
    (hf : W.runFunction i params body args (M, x) = .ok r (M', x')) :
    ∃ m', Through ext (prologueBytes used ++ (bytes ++
        Chunk.fill (Chunk.size (Chunk.dropped cs)) (Chunk.dropped cs)) ++ leaveBytes used)
        m x m' x' ∧ Returned W.stack k r m m' M' := by
  refine hcode.returned hrange hcall hf fun hr => ?_
  subst hr
  obtain ⟨-, ⟨M₂, x₂⟩, -, hexec⟩ := Run.bind_eq_ok.mp hf
  rw [← World.execAll_single (W.exec i)] at hexec
  exact execAll_ends hcode.laid.shape ((lastSound_single body).trans hsound) hexec

end Calls

section Functions

variable {σ : Type} {W : World σ} {ext : Reg → Machine → σ → Option (Machine × σ)} {L : Layout}
  {s : GenState} {l rest : List Node} {params : List Word} {body : Stmt} {n i : Nat}

/-- The finished function is moved to the front. -/
theorem moveToFront_sat {t : GenState} {value : Dest} {old : List (Dest × Nat)} {pre code : Bytes}
    (hbuf : t.buf = pre ++ code) (hreallocs : t.reallocs = old ++ [(value, 0)]) :
    (moveToFront pre.length).Sat t (fun _ t' => t'.range = t.range ∧ t'.buf = code ++ pre ∧
      ∃ old', t'.reallocs = old' ++ [(value, 0)]) GivesUp := by
  unfold moveToFront
  split
  · rename_i hzero
    refine ⟨rfl, ?_, old, hreallocs⟩
    rw [hbuf, List.length_eq_zero_iff.mp hzero, List.nil_append, List.append_nil]
  · rw [Run.sat_bind, Run.sat_get, Run.sat_bind, bufmove, Run.sat_modify, Run.sat_modify]
    refine ⟨rfl, ?_, old.map fun e => (e.1, e.2 + (t.buf.length - pre.length)), ?_⟩
    · change t.buf.drop pre.length ++ t.buf.take pre.length = code ++ pre
      rw [hbuf, List.drop_left, List.take_left]
    · change t.reallocs.dropLast.map _ ++ t.reallocs.getLast?.toList = _
      rw [hreallocs, List.dropLast_concat, List.getLast?_concat]
      rfl

/-- `codegen_func` behind its prologue. -/
def enteredBody (value : Dest) (s : GenState) : GenState :=
  { enterFunction value s with buf := s.buf ++ prologueBytes allUsed, returns := [] }

theorem codegenFunc_eq (rec : GenExpr) (value : Dest) (argCount : Nat) (s : GenState) :
    codegenFunc rec n value argCount s = (functionTrees rec n argCount >>= fun _ =>
      finishFunction (s.buf.length + 4) (s.buf.length + 8) >>= fun _ =>
        Run.modify (fun t => { t with fn := s.fn, returns := s.returns }) >>= fun _ =>
          moveToFront s.buf.length) (enteredBody value s) := by
  have hprologue : prologue (enterFunction value s) = .ok _ _ := prologue_ok _
  rw [codegenFunc, Run.get_bind, Run.modify_bind]
  exact (Run.bind_of_ok hprologue).trans rfl

/-- The trees of a function were taken, and it was written in front of the code that was there. -/
structure WritesFramed (W : World σ) (ext : Reg → Machine → σ → Option (Machine × σ))
    (value : Dest) (params : List Word) (body : Stmt) (rest : List Node) (s s' : GenState) :
    Prop where
  range : s'.range = rest
  recorded : ∃ old, s'.reallocs = old ++ [(value, 0)]
  code : ∃ used bytes cs, s'.buf = prologueBytes used ++ (bytes ++
        Chunk.fill (Chunk.size (Chunk.dropped cs)) (Chunk.dropped cs)) ++
        epilogueBytes used ++ s.buf ∧
    Chunk.InRange (Chunk.size (Chunk.dropped cs)) (Chunk.dropped cs) ∧
    BodyCode W ext (BodyKept used) 0 params body bytes cs

theorem codegenFunc_writes {value : Dest} (hcalls : CallsAs W ext)
    (h : ReadsFunction L (enterFunction value s).cup l params body)
    (hparams : params.length ≤ sysvArgRegs.length) (hs : s.range = l ++ rest)
    (hn : l.length < n) (hi : l.length ≤ i) :
    (codegenFunc (codegenExpr L n) i value params.length).Sat s
      (fun _ s' => WritesFramed W ext value params body rest s s') GivesUp := by
  unfold Run.Sat
  rw [codegenFunc_eq]
  have hs₁ : (enteredBody value s).range = l ++ rest := hs
  refine sat_then (functionTrees_writes hcalls h hparams ⟨_, rfl⟩ hs₁ hn hi) fun _ t ht => ?_
  obtain ⟨bytes, cs, hem, hcode⟩ := ht.code
  refine sat_then (finishFunction_chunks hem.buf hem.returns) ?_
  rintro _ t' ⟨-, hrange, hreallocs, hbuf, hfits⟩
  rw [Chunk.dropped, Chunk.size_code, Chunk.fill, Nat.add_sub_cancel_left] at hbuf
  rw [Chunk.dropped, Chunk.size_code, Chunk.InRange, Nat.add_sub_cancel_left] at hfits
  rw [List.append_assoc, List.append_assoc, ← List.append_assoc (prologueBytes _)] at hbuf
  have hreallocs' : t'.reallocs = s.reallocs ++ [(value, 0)] := hreallocs.trans hem.reallocs
  rw [Run.sat_bind, Run.sat_modify]
  refine Run.sat_mono (moveToFront_sat (t := { t' with fn := s.fn, returns := s.returns })
    hbuf hreallocs') ?_ fun _ _ h => h
  rintro _ s' ⟨hrange', hbuf', hrecorded⟩
  exact ⟨hrange'.trans (hrange.trans ht.range), hrecorded, _, bytes, cs, hbuf', hfits,
    hcode.of_keep fun _ hq => hq.kept⟩

/-- A function was written in front of the code that was there: wherever it stands, a call with a
    result of the function gets to the `ret` with this result. -/
structure WritesCode (W : World σ) (ext : Reg → Machine → σ → Option (Machine × σ)) (value : Dest)
    (params : List Word) (body : Stmt) (rest : List Node) (s s' : GenState) : Prop where
  range : s'.range = rest
  recorded : ∃ old, s'.reallocs = old ++ [(value, 0)]
  code : ∃ code, s'.buf = code ++ emitRet ++ s.buf ∧ ∀ i k m M x args r M' x',
    Called W.stack (7 + W.stmtWords body) params.length k m M args →
    W.runFunction i params body args (M, x) = .ok r (M', x') →
    ∃ m', Through ext code m x m' x' ∧ Returned W.stack k r m m' M'

/-- **The code of a function does what the function does.** From nodes that are read as parameters
    and a sound body, `codegen_func` takes these nodes and writes a function in front of the code
    that was there; else it has given up with the exit code 1. -/
theorem codegenFunc_implements {value : Dest} (hcalls : CallsAs W ext)
    (h : ReadsFunction L (enterFunction value s).cup l params body)
    (hparams : params.length ≤ sysvArgRegs.length) (hsound : body.sound = true)
    (hs : s.range = l ++ rest) (hn : l.length < n) (hi : l.length ≤ i) :
    (∀ u s', codegenFunc (codegenExpr L n) i value params.length s = .ok u s' →
      WritesCode W ext value params body rest s s') ∧
    ∀ stop s', codegenFunc (codegenExpr L n) i value params.length s = .stop stop s' →
      stop = .exit 1 := by
  have hsat := codegenFunc_writes hcalls h hparams hs hn hi
  refine ⟨fun u s' hok => ?_, fun e s' hstop => (Run.sat_of_stop hstop).mp hsat⟩
  have hwrites := (Run.sat_of_ok hok).mp hsat
  obtain ⟨used, bytes, cs, hbuf, hfits, hcode⟩ := hwrites.code
  have hleave : epilogueBytes used = leaveBytes used ++ emitRet := rfl
  rw [hleave, ← List.append_assoc (prologueBytes _ ++ _)] at hbuf
  exact ⟨hwrites.range, hwrites.recorded, _, hbuf, fun i k m M x args r M' x' hcall hf =>
    hcode.implements hfits hsound hcall hf⟩

end Functions

/-- A function with a parameter at the address 8:
    `while 0 < x { if x == 1 return 5; x = x - 1 }`. -/
def countdown : Stmt :=
  .loop (.binary .less (.const 0) (.place 8))
    (.block [.ite (.binary .equal (.place 8) (.const 1)) (.ret (.const 5)),
      .expr (.assign (.place 8) (.binary .sub (.place 8) (.const 1)))])

/-- Its nodes. -/
def countdownNodes : List Node :=
  [.tok ⟨.tComma, 1, 1⟩, .value 1, .tok ⟨.nAddress, 1, 1⟩, .value 8,
    .tok ⟨.tWhile, 1, 1⟩, .tok ⟨.tLess, 1, 1⟩, .tok ⟨.tNumber, 1, 1⟩, .value 0,
    .tok ⟨.nAddress, 1, 1⟩, .value 8, .tok ⟨.nBlock, 1, 1⟩, .value 2,
    .tok ⟨.tIf, 1, 1⟩, .tok ⟨.tEqeq, 1, 1⟩, .tok ⟨.nAddress, 1, 1⟩, .value 8,
    .tok ⟨.tNumber, 1, 1⟩, .value 1, .tok ⟨.tReturn, 1, 1⟩, .tok ⟨.tNumber, 1, 1⟩, .value 5,
    .tok ⟨.tEq, 1, 1⟩, .tok ⟨.nAddress, 1, 1⟩, .value 8, .tok ⟨.tSub, 1, 1⟩,
    .tok ⟨.nAddress, 1, 1⟩, .value 8, .tok ⟨.tNumber, 1, 1⟩, .value 1]

theorem reads_countdown (L : Layout) (c : CUPState) :
    ReadsFunction L c countdownNodes [8] countdown := by
  have hnumber : ∀ (c : CUPState) (n : Nat), n < 2 ^ 64 →
      Reads L c [.tok ⟨.tNumber, 1, 1⟩, .value n] (.const (BitVec.ofNat 64 n)) :=
    fun _ _ h => .number rfl h
  have hx : ∀ c : CUPState, Reads L c [.tok ⟨.nAddress, 1, 1⟩, .value 8] (.place 8) :=
    fun _ => .address rfl
  have hone : ∀ c : CUPState, Reads L c [.tok ⟨.tNumber, 1, 1⟩, .value 1] (.const 1) :=
    fun c => hnumber c 1 (by decide)
  have htok : ∀ t, (Loc.mk t 1 1).token = t := fun _ => rfl
  have hop : ∀ op : BinOp, (Loc.mk op.token 1 1).token = op.token := fun _ => rfl
  -- the statements of the block, in their scope
  have hinner : ReadsBody L { c with scope := c.scope + 1 } _ _ _ :=
    .ite (htok .tIf) (.binary (hop .equal) (hx _) (hone _))
      (.ret (htok .tReturn) (hnumber _ 5 (by decide)) .nil)
      (.expr (.assign (htok .tEq) (hx _) (.binary (hop .sub) (hx _) (hone _))) .nil)
  have hblock : ReadsBody L c _ _ _ := .block (htok .nBlock) hinner .nil
  have hbody : ReadsBody L c _ _ _ :=
    .loop (htok .tWhile) (.binary (hop .less) (hnumber _ 0 (by decide)) (hx _)) hblock .nil
  have hparams : ∀ p ∈ [([Node.tok ⟨.nAddress, 1, 1⟩, .value 8], (8 : Word))],
      Reads L c p.1 (.place p.2) := by
    intro p hp
    rw [List.mem_singleton.mp hp]
    exact hx c
  exact .params (htok .tComma) (by decide) hparams hbody

def countdownGen : GenState where
  cup := {}
  range := countdownNodes

/-- The machine at the call, with the argument 2 and the stack 8 behind a multiple of 16. -/
def countdownMachine : Machine where
  regs := fun r => if r = .rsp then 69624 else if r = .rdi then 2 else 0
  mem := fun _ => 0

theorem codegenFunc_implements_countdown : ∃ s' code m',
    codegenFunc (codegenExpr ⟨4096, 8192⟩ 32) 32 .init 1 countdownGen = .ok () s' ∧
      s'.buf = code ++ emitRet ∧ Through adderExt code countdownMachine () m' () ∧
      m'.regs .rax = 5 ∧ m'.regs .rsp = 69624 := by
  have hok : codegenFunc (codegenExpr ⟨4096, 8192⟩ 32) 32 .init 1 countdownGen =
      .ok () (codegenFunc (codegenExpr ⟨4096, 8192⟩ 32) 32 .init 1 countdownGen).state := by
    decide +kernel
  have hrange : countdownGen.range = countdownNodes ++ [] := rfl
  obtain ⟨-, -, code, hbuf, hcode⟩ := (codegenFunc_implements adder_callsAs
    (reads_countdown ⟨4096, 8192⟩ (enterFunction .init countdownGen).cup) (by decide) rfl hrange
    (by decide) (by decide)).1 () _ hok
  have hrun : adderWorld.runFunction 8 [8] countdown [2] (countdownMachine.mem, ()) =
      .ok (some 5) (adderWorld.runFunction 8 [8] countdown [2] (countdownMachine.mem, ())).state := by
    simp only [World.runFunction, World.enter, countdown, World.exec, World.execAll, World.eval]
    rfl
  have hneed : adderWorld.stmtWords countdown = 0 := by
    simp only [countdown, World.stmtWords, World.bodyWords, World.words]
    rfl
  have hcalled : Called adderWorld.stack (7 + adderWorld.stmtWords countdown) [(8 : Word)].length
      4088 countdownMachine countdownMachine.mem [2] :=
    ⟨⟨rfl, fun _ _ => rfl⟩, by rw [hneed]; decide, by decide, by decide, rfl, rfl⟩
  obtain ⟨m', hthrough, hreturned⟩ := hcode 8 4088 countdownMachine countdownMachine.mem () [2]
    (some 5) _ _ hcalled hrun
  refine ⟨_, code, m', hok, ?_, hthrough, hreturned.value 5 rfl, hreturned.step.top⟩
  rw [hbuf]
  exact List.append_nil _

/-! ## The return that is dropped -/

section Overshoots

variable {σ : Type} {W : World σ} {ext : Reg → Machine → σ → Option (Machine × σ)} {L : Layout}
  {s : GenState} {l rest : List Node} {params : List Word} {body : Stmt} {n i : Nat}

/-- **Where the body is not sound, its code leads too far.** A call with a value gets to the `ret`
    with it. A call without one gets from the body to 5 bytes behind the start of the epilogue, for
    which its last `if` was patched before the `return` in it was dropped. -/
theorem codegenFunc_overshoots {value : Dest} (hcalls : CallsAs W ext)
    (h : ReadsFunction L (enterFunction value s).cup l params body)
    (hparams : params.length ≤ sysvArgRegs.length) (hunsound : body.sound = false)
    (hs : s.range = l ++ rest) (hn : l.length < n) (hi : l.length ≤ i) :
    ∀ u s', codegenFunc (codegenExpr L n) i value params.length s = .ok u s' →
      ∃ used code, s'.buf = prologueBytes used ++ code ++ epilogueBytes used ++ s.buf ∧
        ∀ i k m M x args r M' x',
          Called W.stack (7 + W.stmtWords body) params.length k m M args →
          W.runFunction i params body args (M, x) = .ok r (M', x') →
          (r ≠ none → ∃ m', Through ext (prologueBytes used ++ code ++ leaveBytes used) m x m' x' ∧
            Returned W.stack k r m m' M') ∧
          (r = none → ∃ m', Reaches ext (prologueBytes used ++ code) m x
            ((prologueBytes used ++ code).length + 5) m' x' ∧ InFrame W.stack k used r m m' M') := by
  intro u s' hok
  have hwrites := (Run.sat_of_ok hok).mp (codegenFunc_writes hcalls h hparams hs hn hi)
  obtain ⟨used, bytes, cs, hbuf, hfits, hcode⟩ := hwrites.code
  refine ⟨used, _, hbuf, fun i k m M x args r M' x' hcall hf => ⟨fun hr => ?_, fun hr => ?_⟩⟩
  · exact hcode.returned hfits hcall hf fun h => absurd h hr
  · subst hr
    obtain ⟨m', hrun, hframe⟩ := hcode.runs hfits hcall hf
    refine ⟨m', ?_, hframe⟩
    have hshort := hcode.laid.shape.shorter ((lastReturns_single body).trans (body.returns_of_unsound hunsound))
    have hlen : (prologueBytes used ++ (bytes ++
        Chunk.fill (Chunk.size (Chunk.dropped cs)) (Chunk.dropped cs))).length + 5 =
        (prologueBytes used ++ bytes).length + Chunk.size cs := by
      rw [← List.append_assoc, List.length_append, Chunk.fill_length, hshort, Nat.add_assoc]
    rw [hlen]
    exact hrun

end Overshoots

/-- A function with a parameter at the address 8: `if x return 1`. -/
def guardReturn : Stmt := .ite (.place 8) (.ret (.const 1))

/-- Its nodes. -/
def guardReturnGen : GenState where
  cup := {}
  range := [.tok ⟨.tComma, 1, 1⟩, .value 1, .tok ⟨.nAddress, 1, 1⟩, .value 8,
    .tok ⟨.tIf, 1, 1⟩, .tok ⟨.nAddress, 1, 1⟩, .value 8, .tok ⟨.tReturn, 1, 1⟩,
    .tok ⟨.tNumber, 1, 1⟩, .value 1]

theorem reads_guardReturn (L : Layout) (c : CUPState) :
    ReadsFunction L c guardReturnGen.range [8] guardReturn := by
  have hx : ∀ c : CUPState, Reads L c [.tok ⟨.nAddress, 1, 1⟩, .value 8] (.place 8) :=
    fun _ => .address rfl
  have hone : Reads L c [.tok ⟨.tNumber, 1, 1⟩, .value 1] (.const (BitVec.ofNat 64 1)) :=
    .number rfl (by decide)
  have htok : ∀ t, (Loc.mk t 1 1).token = t := fun _ => rfl
  have hbody : ReadsBody L c _ _ _ :=
    .ite (htok .tIf) (hx c) (.ret (htok .tReturn) hone .nil) .nil
  have hparams : ∀ p ∈ [([Node.tok ⟨.nAddress, 1, 1⟩, .value 8], (8 : Word))],
      Reads L c p.1 (.place p.2) := by
    intro p hp
    rw [List.mem_singleton.mp hp]
    exact hx c
  exact .params (htok .tComma) (by decide) hparams hbody

theorem codegenFunc_overshoots_guardReturn : ∃ s' used code m',
    codegenFunc (codegenExpr ⟨4096, 8192⟩ 16) 16 .init 1 guardReturnGen = .ok () s' ∧
      s'.buf = prologueBytes used ++ code ++ epilogueBytes used ∧
      Reaches adderExt (prologueBytes used ++ code) (countdownMachine.set .rdi 0) ()
        ((prologueBytes used ++ code).length + 5) m' () := by
  have hok : codegenFunc (codegenExpr ⟨4096, 8192⟩ 16) 16 .init 1 guardReturnGen =
      .ok () (codegenFunc (codegenExpr ⟨4096, 8192⟩ 16) 16 .init 1 guardReturnGen).state := by
    decide +kernel
  have hrange : guardReturnGen.range = guardReturnGen.range ++ [] := rfl
  obtain ⟨used, code, hbuf, hcode⟩ := codegenFunc_overshoots adder_callsAs
    (reads_guardReturn ⟨4096, 8192⟩ (enterFunction .init guardReturnGen).cup) (by decide) rfl hrange
    (by decide) (by decide) () _ hok
  have hrun : adderWorld.runFunction 2 [8] guardReturn [0] (countdownMachine.mem, ()) =
      .ok none (adderWorld.runFunction 2 [8] guardReturn [0] (countdownMachine.mem, ())).state := by
    simp only [World.runFunction, World.enter, guardReturn, World.exec, World.eval]
    rfl
  have hneed : adderWorld.stmtWords guardReturn = 0 := by
    simp only [guardReturn, World.stmtWords, World.words]
    rfl
  have hcalled : Called adderWorld.stack (7 + adderWorld.stmtWords guardReturn)
      [(8 : Word)].length 4088 (countdownMachine.set .rdi 0) countdownMachine.mem [0] :=
    ⟨⟨rfl, fun _ _ => rfl⟩, by rw [hneed]; decide, by decide, by decide, rfl, rfl⟩
  obtain ⟨m', hreaches, -⟩ := (hcode 2 4088 _ countdownMachine.mem () [0] none _ _ hcalled hrun).2 rfl
  exact ⟨_, used, code, m', hok, hbuf.trans (List.append_nil _), hreaches⟩

end Cup
