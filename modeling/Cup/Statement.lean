/-
  Statements (`codegen_expr` and `codegen_func`, `src/codegen/x64codegen.c`): what they mean, and
  what their code does when its jumps are known.

  `World.exec` is the reference: a statement gives a value where it ends with a `return`. The
  model counts the depth, since a loop may not end. `CodeOf` says that chunks are the code of
  statements, wherever their returns lead; it has one rule for each kind of statement. The
  generator drops a `return` at the end of a function, but an `if` may jump behind it: without a
  value the code leads to where its end was before, which is its end only where the body is
  `Stmt.sound` (`execAll_ends`).
-/
import Cup.Lib.X64Exits
import Cup.Pending

namespace Cup

open Lib (Stop Run Res)
open Lib.X64

/-! ## Statements -/

/-- A statement; a block has any number of them. -/
inductive Stmt where
  | expr (e : Expr)
  | block (ss : List Stmt)
  | ite (cond : Expr) (body : Stmt)
  | loop (cond : Expr) (body : Stmt)
  | ret (e : Expr)

namespace Stmt

mutual

/-- There is code of the statement: it is no block of empty blocks. -/
def hasCode : Stmt → Bool
  | .block ss => anyCode ss
  | _ => true

def anyCode : List Stmt → Bool
  | [] => false
  | s :: ss => s.hasCode || anyCode ss

end

mutual

/-- The last instruction is the jump of a `return`. -/
def returns : Stmt → Bool
  | .ret _ => true
  | .block ss => lastReturns ss
  | .ite _ b => b.returns
  | .expr _ | .loop _ _ => false

def lastReturns : List Stmt → Bool
  | [] => false
  | s :: ss => if anyCode ss then lastReturns ss else s.returns

end

mutual

/-- No `if` jumps to the end of the code over a `return` that is the last instruction. -/
def sound : Stmt → Bool
  | .ite _ b => !b.returns
  | .block ss => lastSound ss
  | _ => true

def lastSound : List Stmt → Bool
  | [] => true
  | s :: ss => if anyCode ss then lastSound ss else s.sound

end

mutual

/-- What a body that is not sound ends in. -/
theorem returns_of_unsound : ∀ s : Stmt, s.sound = false → s.returns = true
  | .expr _, h | .loop _ _, h | .ret _, h => by cases h
  | .block ss, h => lastReturns_of_unsound ss h
  | .ite _ b, h => by
    rw [sound, Bool.not_eq_false'] at h
    exact h

theorem lastReturns_of_unsound : ∀ ss : List Stmt, lastSound ss = false → lastReturns ss = true
  | [], h => by cases h
  | s :: ss, h => by
    rw [lastSound] at h
    rw [lastReturns]
    split at h
    · rename_i hany
      rw [if_pos hany]
      exact lastReturns_of_unsound ss h
    · rename_i hany
      rw [if_neg hany]
      exact returns_of_unsound s h

end

end Stmt

namespace World

variable {σ : Type} (W : World σ)

mutual

/-- Words of the stack that the code of a statement may need. -/
def stmtWords : Stmt → Nat
  | .expr e | .ret e => W.words e
  | .block ss => bodyWords ss
  | .ite c b | .loop c b => max (W.words c) (stmtWords b)

def bodyWords : List Stmt → Nat
  | [] => 0
  | s :: ss => max (stmtWords s) (bodyWords ss)

end

/-- Statements one after the other, up to one that gives a value. -/
def execAll (f : Stmt → Meaning σ (Option Word)) : List Stmt → Meaning σ (Option Word)
  | [] => pure none
  | s :: ss => (f s).onNone (execAll f ss)

/-- A statement is executed, to the depth `n`. -/
def exec : Nat → Stmt → Meaning σ (Option Word)
  | 0, _ => Run.stop .fuel
  | _ + 1, .expr e => W.eval false e >>= fun _ => pure none
  | n + 1, .block ss => execAll (exec n) ss
  | n + 1, .ite c b => W.eval true c >>= fun v => if v = 0 then pure none else exec n b
  | n + 1, .loop c b => W.eval true c >>= fun v =>
    if v = 0 then pure none else (exec n b).onNone (exec n (.loop c b))
  | _ + 1, .ret e => W.eval true e >>= fun v => pure (some v)

theorem execAll_single (f : Stmt → Meaning σ (Option Word)) (s : Stmt) : execAll f [s] = f s :=
  Run.onNone_pure (f s)

/-- Statements without code do nothing. -/
theorem execAll_of_empty {n : Nat} {ss : List Stmt} {x x' : Mem × σ} {r : Option Word}
    (hss : Stmt.anyCode ss = false) (h : execAll (W.exec n) ss x = .ok r x') :
    r = none ∧ x' = x := by
  induction n generalizing ss x r x' with
  | zero =>
    cases ss with
    | nil => cases h; exact ⟨rfl, rfl⟩
    | cons s ss => cases h
  | succ n ih =>
    induction ss generalizing x with
    | nil => cases h; exact ⟨rfl, rfl⟩
    | cons s ss ihss =>
      rw [Stmt.anyCode, Bool.or_eq_false_iff] at hss
      obtain ⟨r₁, x₁, h₁, hrest⟩ := Run.bind_eq_ok.mp h
      cases s with
      | block ss' =>
        obtain ⟨rfl, rfl⟩ := ih hss.1 h₁
        exact ihss hss.2 hrest
      | _ => cases hss.1

/-- Statements whose last instruction is a `return` that nothing jumps over give a value. -/
theorem execAll_value {n : Nat} {ss : List Stmt} {x x' : Mem × σ} {r : Option Word}
    (hss : Stmt.lastReturns ss = true) (hsound : Stmt.lastSound ss = true)
    (h : execAll (W.exec n) ss x = .ok r x') : r ≠ none := by
  induction n generalizing ss x r x' with
  | zero =>
    cases ss with
    | nil => cases hss
    | cons s ss => cases h
  | succ n ih =>
    induction ss generalizing x with
    | nil => cases hss
    | cons s ss ihss =>
      obtain ⟨r₁, x₁, h₁, hrest⟩ := Run.bind_eq_ok.mp h
      cases r₁ with
      | some v => cases hrest; exact Option.some_ne_none v
      | none =>
        rw [Stmt.lastReturns] at hss
        rw [Stmt.lastSound] at hsound
        by_cases hany : Stmt.anyCode ss = true
        · rw [if_pos hany] at hss hsound
          exact ihss hss hsound hrest
        · rw [if_neg hany] at hss hsound
          -- the statement itself gave no value
          cases s with
          | expr e => cases hss
          | block ss' => exact absurd rfl (ih hss hsound h₁)
          | ite c b =>
            rw [Stmt.returns] at hss
            rw [Stmt.sound, hss] at hsound
            cases hsound
          | loop c b => cases hss
          | ret e =>
            obtain ⟨v, x₂, -, hv⟩ := Run.bind_eq_ok.mp h₁
            cases hv

end World

/-! ## The shape of their code -/

/-- What the chunks of statements have in common with them. -/
structure Shape (ss : List Stmt) (cs : List Chunk) : Prop where
  size : Stmt.anyCode ss = true ↔ Chunk.size cs ≠ 0
  last : Stmt.lastReturns ss = false → Chunk.dropped cs = cs
  shorter : Stmt.lastReturns ss = true → Chunk.size cs = Chunk.size (Chunk.dropped cs) + 5

section Shape

variable {a b cs : List Chunk} {ss : List Stmt} {s body : Stmt} {e : Expr} {bytes c j p : Bytes}

theorem anyCode_single (s : Stmt) : Stmt.anyCode [s] = s.hasCode := by
  rw [Stmt.anyCode, Stmt.anyCode, Bool.or_false]

theorem lastReturns_single (s : Stmt) : Stmt.lastReturns [s] = s.returns := by
  rw [Stmt.lastReturns, Stmt.anyCode, if_neg (by decide)]

theorem lastSound_single (s : Stmt) : Stmt.lastSound [s] = s.sound := by
  rw [Stmt.lastSound, Stmt.anyCode, if_neg (by decide)]

theorem shape_nil : Shape [] [] where
  size := iff_of_false Bool.false_ne_true fun h => h rfl
  last _ := rfl
  shorter h := by cases h

/-- A statement whose code does not end in a return. -/
theorem shape_of_kept (hcode : s.hasCode = true) (hreturns : s.returns = false)
    (hsize : Chunk.size cs ≠ 0) (hlast : Chunk.dropped cs = cs) : Shape [s] cs where
  size := iff_of_true ((anyCode_single s).trans hcode) hsize
  last _ := hlast
  shorter h := by
    rw [lastReturns_single, hreturns] at h
    cases h

theorem Shape.cons (ha : Shape [s] a) (hb : Shape ss b) : Shape (s :: ss) (a ++ b) := by
  have hsize := ha.size
  rw [anyCode_single] at hsize
  refine ⟨?_, fun h => ?_, fun h => ?_⟩
  · rw [Stmt.anyCode, Bool.or_eq_true, hsize, hb.size, Chunk.size_append]
    omega
  · rw [Stmt.lastReturns] at h
    by_cases hzero : Chunk.size b = 0
    · rw [if_neg fun h => hb.size.mp h hzero, ← lastReturns_single] at h
      rw [Chunk.dropped_append_of_size hzero, ha.last h]
    · rw [if_pos (hb.size.mpr hzero)] at h
      rw [Chunk.dropped_append hzero, hb.last h]
  · rw [Stmt.lastReturns] at h
    by_cases hzero : Chunk.size b = 0
    · rw [if_neg fun h => hb.size.mp h hzero, ← lastReturns_single] at h
      rw [Chunk.dropped_append_of_size hzero, Chunk.size_append, Chunk.size_append, ha.shorter h]
      omega
    · rw [if_pos (hb.size.mpr hzero)] at h
      rw [Chunk.dropped_append hzero, Chunk.size_append, Chunk.size_append, hb.shorter h]
      omega

theorem shape_expr (hpos : 0 < bytes.length) : Shape [.expr e] [.code bytes] := by
  refine shape_of_kept rfl rfl ?_ rfl
  rw [Chunk.size_code]
  omega

theorem Shape.block (h : Shape ss cs) : Shape [.block ss] cs where
  size := by
    rw [anyCode_single, Stmt.hasCode]
    exact h.size
  last hl := by
    rw [lastReturns_single, Stmt.returns] at hl
    exact h.last hl
  shorter hl := by
    rw [lastReturns_single, Stmt.returns] at hl
    exact h.shorter hl

theorem Shape.ite (h : Shape [body] b) (hjpos : 0 < j.length) :
    Shape [.ite e body] (.code (c ++ j) :: b) := by
  have hreturns : Stmt.lastReturns [.ite e body] = Stmt.lastReturns [body] := by
    rw [lastReturns_single, lastReturns_single, Stmt.returns]
  refine ⟨iff_of_true rfl ?_, fun hl => ?_, fun hl => ?_⟩
  · rw [Chunk.size_code, List.length_append]
    omega
  · rw [Chunk.dropped, h.last (hreturns ▸ hl)]
  · rw [Chunk.dropped, Chunk.size_code, Chunk.size_code, h.shorter (hreturns ▸ hl), Nat.add_assoc]

theorem shape_loop (hpos : 0 < p.length) :
    Shape [.loop e body] (.code (c ++ j) :: (b ++ [.code p])) := by
  refine shape_of_kept rfl rfl ?_ (Chunk.dropped_code_last (a := .code (c ++ j) :: b) hpos)
  rw [Chunk.size_code, Chunk.size_append, Chunk.size_code]
  omega

theorem shape_ret : Shape [.ret e] [.code bytes, .exit] := by
  have hsize : Chunk.size [.code bytes, .exit] = bytes.length + 5 := rfl
  refine ⟨iff_of_true rfl (by omega), fun hl => ?_, fun _ => hsize⟩
  rw [lastReturns_single, Stmt.returns] at hl
  cases hl

end Shape

/-- How the chunks of statements are laid out: a condition jumps over its body, and the body of a
    loop is followed by a jump to the condition. -/
inductive Laid : List Stmt → List Chunk → Prop where
  | nil : Laid [] []
  | expr {e : Expr} {bytes : Bytes} : Straight bytes → 0 < bytes.length →
    Laid [.expr e] [.code bytes]
  | block {ss : List Stmt} {cs : List Chunk} : Laid ss cs → Laid [.block ss] cs
  | ite {e : Expr} {body : Stmt} {c j : Bytes} {b : List Chunk} {cc : Cond} {rel : Int} :
    Laid [body] b → Straight c → Code j [.jcc cc rel] → rel = Chunk.size b →
    Laid [.ite e body] (.code (c ++ j) :: b)
  | loop {e : Expr} {body : Stmt} {c j p : Bytes} {b : List Chunk} {cc : Cond} {rel back : Int} :
    Laid [body] b → Straight c → Code j [.jcc cc rel] → rel = (Chunk.size b + p.length : Nat) →
    Code p [.jmp back] → back = -((c ++ j).length + Chunk.size b + p.length : Nat) →
    Laid [.loop e body] (.code (c ++ j) :: (b ++ [.code p]))
  | ret {e : Expr} {bytes : Bytes} : Straight bytes → Laid [.ret e] [.code bytes, .exit]
  | cons {s : Stmt} {ss : List Stmt} {a b : List Chunk} : Laid [s] a → Laid ss b →
    Laid (s :: ss) (a ++ b)

theorem Laid.shape {ss : List Stmt} {cs : List Chunk} (h : Laid ss cs) : Shape ss cs := by
  induction h with
  | nil => exact shape_nil
  | expr _ hpos => exact shape_expr hpos
  | block _ ih => exact ih.block
  | ite _ _ hj _ ih => exact ih.ite hj.length_pos
  | loop _ _ _ _ hp _ _ => exact shape_loop hp.length_pos
  | ret _ => exact shape_ret
  | cons _ _ ihs ihss => exact ihs.cons ihss

/-! ## What their code does -/

section CodeOf

variable {σ : Type} (W : World σ) (ext : Reg → Machine → σ → Option (Machine × σ))

/-- The chunks are the code of the statements. They lead to its end where no value is given, and
    the returns with their value in `rax` to `t` bytes behind its start. When the last return is
    dropped, that is its end, but the jumps over the return are as they were. -/
structure CodeOf (keep : Reg → Prop) (k : Nat) (ss : List Stmt) (cs : List Chunk) : Prop where
  flows : ∀ n t, Chunk.size cs ≤ t → Chunk.InRange t cs →
    Flows W.stack ext keep k k (Chunk.size cs) t (Chunk.fill t cs) (World.execAll (W.exec n) ss)
      fun v m => m.regs .rax = v
  ends : ∀ n t, t = Chunk.size (Chunk.dropped cs) → Chunk.InRange t (Chunk.dropped cs) →
    Flows W.stack ext keep k k (Chunk.size cs) t (Chunk.fill t (Chunk.dropped cs))
      (World.execAll (W.exec n) ss) fun v m => m.regs .rax = v

variable {W} {ext} {keep keep' : Reg → Prop} {k : Nat} {a b cs : List Chunk} {ss : List Stmt}
  {body : Stmt} {e : Expr} {bytes c j p : Bytes} {cc : Cond}

theorem CodeOf.of_keep (h : CodeOf W ext keep k ss cs) (hkeep : ∀ r, keep' r → keep r) :
    CodeOf W ext keep' k ss cs where
  flows n t ht hr := (h.flows n t ht hr).of_keep hkeep
  ends n t ht hr := (h.ends n t ht hr).of_keep hkeep

/-- Code that does not end in a return is kept. -/
theorem codeOf_of_kept (hlast : Chunk.dropped cs = cs)
    (hflows : ∀ n t, Chunk.size cs ≤ t → Chunk.InRange t cs →
      Flows W.stack ext keep k k (Chunk.size cs) t (Chunk.fill t cs) (World.execAll (W.exec n) ss)
        fun v m => m.regs .rax = v) : CodeOf W ext keep k ss cs where
  flows := hflows
  ends n t ht hr := by
    rw [hlast] at ht hr ⊢
    exact hflows n t ht.ge hr

theorem codeOf_nil : CodeOf W ext keep k [] [] := codeOf_of_kept rfl fun _ _ _ _ => flows_nil

/-- Statements behind a statement. -/
theorem CodeOf.cons {s : Stmt} (hshape : Shape ss b) (ha : CodeOf W ext keep k [s] a)
    (hb : CodeOf W ext keep k ss b) : CodeOf W ext keep k (s :: ss) (a ++ b) := by
  have hexec : ∀ n, World.execAll (W.exec n) (s :: ss) =
      (World.execAll (W.exec n) [s]).onNone (World.execAll (W.exec n) ss) := fun n => by
    rw [World.execAll_single]
    rfl
  have hseq : ∀ n t cs, Chunk.size a + Chunk.size cs ≤ t → Chunk.InRange t (a ++ cs) →
      (Chunk.InRange (t - Chunk.size a) cs → Flows W.stack ext keep k k (Chunk.size b)
        (t - Chunk.size a) (Chunk.fill (t - Chunk.size a) cs) (World.execAll (W.exec n) ss)
        fun v m => m.regs .rax = v) →
      Flows W.stack ext keep k k (Chunk.size (a ++ b)) t (Chunk.fill t (a ++ cs))
        (World.execAll (W.exec n) (s :: ss)) fun v m => m.regs .rax = v := by
    intro n t cs ht hr hbehind
    rw [Chunk.inRange_append] at hr
    have hfirst := ha.flows n t (by omega) hr.1
    have hlen : (Chunk.fill t a).length = Chunk.size a := Chunk.fill_length
    rw [hexec, Chunk.fill_append]
    rw [← hlen] at hfirst hbehind hr ⊢
    exact hfirst.seq (hbehind hr.2) (by rw [Chunk.size_append, hlen]) (by omega)
  refine ⟨fun n t ht hr => ?_, fun n t ht hr => ?_⟩
  · rw [Chunk.size_append] at ht
    exact hseq n t b ht hr fun hr => hb.flows n _ (by omega) hr
  · by_cases hzero : Chunk.size b = 0
    · -- what was dropped is in front, and no code is behind it
      have hempty : Stmt.anyCode ss = false :=
        Bool.eq_false_iff.mpr fun h => hshape.size.mp h hzero
      rw [Chunk.dropped_append_of_size hzero] at ht hr ⊢
      rw [Chunk.size_append, hzero, Nat.add_zero] at ht ⊢
      rw [Chunk.inRange_append] at hr
      rw [hexec, Chunk.fill_append, Chunk.fill_of_size hzero, List.append_nil]
      exact (ha.ends n t ht hr.1).idle fun _ _ _ h => W.execAll_of_empty hempty h
    · rw [Chunk.dropped_append hzero] at ht hr ⊢
      rw [Chunk.size_append] at ht
      exact hseq n t _ ht.ge hr fun hr => hb.ends n _ (by omega) hr

/-- What the code of one statement does. -/
theorem flows_single {s : Stmt} {d t : Nat}
    (h : ∀ n, Flows W.stack ext keep k k d t bytes (W.exec (n + 1) s) fun v m => m.regs .rax = v)
    (n : Nat) : Flows W.stack ext keep k k d t bytes (World.execAll (W.exec n) [s])
      fun v m => m.regs .rax = v := by
  rw [World.execAll_single]
  cases n with
  | zero => exact flows_stop _
  | succ n => exact h n

theorem codeOf_expr {post : Word → Machine → Prop}
    (h : Does W.stack ext keep k k k bytes (fun _ => True) (W.eval false e) post) :
    CodeOf W ext keep k [.expr e] [.code bytes] := by
  refine codeOf_of_kept rfl fun n t _ _ => ?_
  rw [Chunk.fill, Chunk.fill, List.append_nil]
  exact flows_single (fun n => h.flows) n

theorem CodeOf.block (h : CodeOf W ext keep k ss cs) : CodeOf W ext keep k [.block ss] cs where
  flows n t ht hr := flows_single (fun n => h.flows n t ht hr) n
  ends n t ht hr := flows_single (fun n => h.ends n t ht hr) n

/-- A condition, a jump over the body, and the body. -/
theorem CodeOf.ite {rel : Int} (h : CodeOf W ext keep k [body] b)
    (hc : Does W.stack ext keep k k k c (fun _ => True) (W.eval true e) (Tested cc))
    (hj : Code j [.jcc cc rel]) (hrel : rel = Chunk.size b) :
    CodeOf W ext keep k [.ite e body] (.code (c ++ j) :: b) := by
  have hd : Chunk.size (.code (c ++ j) :: b) = (c ++ j).length + Chunk.size b := Chunk.size_code _
  refine ⟨fun n t ht hr => ?_, fun n t ht hr => ?_⟩
  · rw [Chunk.fill]
    refine flows_single (fun n => ?_) n
    have hb := h.flows n (t - (c ++ j).length) (by omega) hr
    rw [World.execAll_single] at hb
    exact hc.branch hj hrel hb hd (by omega)
  · rw [Chunk.dropped, Chunk.size_code] at ht
    rw [Chunk.dropped, Chunk.fill]
    refine flows_single (fun n => ?_) n
    have hb := h.ends n (t - (c ++ j).length) (by omega) hr
    rw [World.execAll_single] at hb
    exact hc.branch hj hrel hb hd (by omega)

/-- A condition, a jump over the body, the body, and a jump to the condition. -/
theorem CodeOf.loop {rel back : Int} (h : CodeOf W ext keep k [body] b)
    (hc : Does W.stack ext keep k k k c (fun _ => True) (W.eval true e) (Tested cc))
    (hj : Code j [.jcc cc rel]) (hrel : rel = (Chunk.size b + p.length : Nat))
    (hp : Code p [.jmp back])
    (hback : back = -((c ++ j).length + Chunk.size b + p.length : Nat)) :
    CodeOf W ext keep k [.loop e body] (.code (c ++ j) :: (b ++ [.code p])) := by
  refine codeOf_of_kept (Chunk.dropped_code_last (a := .code (c ++ j) :: b) hp.length_pos)
    fun n t ht hr => ?_
  have hd : Chunk.size (.code (c ++ j) :: (b ++ [.code p])) =
      (c ++ j).length + (Chunk.size b + p.length) := by
    rw [Chunk.size_code, Chunk.size_append, Chunk.size_code, Chunk.size_nil, Nat.add_zero]
  have hfill : Chunk.fill t (.code (c ++ j) :: (b ++ [.code p])) =
      c ++ j ++ Chunk.fill (t - (c ++ j).length) b ++ p := by
    rw [Chunk.fill, Chunk.fill_append, Chunk.fill, Chunk.fill, List.append_nil,
      List.append_assoc (c ++ j)]
  rw [World.execAll_single, hfill]
  have hrange := (Chunk.inRange_append.mp hr).1
  -- by induction on the depth, which every turn takes from
  induction n with
  | zero => exact flows_stop _
  | succ n ih =>
    have hb := h.flows n (t - (c ++ j).length) (by omega) hrange
    rw [World.execAll_single] at hb
    have hbody : (Chunk.fill (t - (c ++ j).length) b).length = Chunk.size b := Chunk.fill_length
    have hlen : (c ++ j ++ Chunk.fill (t - (c ++ j).length) b ++ p).length =
        (c ++ j).length + Chunk.size b + p.length := by
      rw [List.length_append, List.length_append, hbody]
    rw [← hbody] at hb
    refine hc.loop hj ?_ hp ?_ hb (by omega) ?_ ih
    · rw [hrel, List.length_append, hbody]
    · rw [hback, hlen]
    · rw [hd, hlen, Nat.add_assoc]

/-- A value, and the jump. -/
theorem codeOf_ret
    (h : Does W.stack ext keep k k k bytes (fun _ => True) (W.eval true e)
      fun v m => m.regs .rax = v) : CodeOf W ext keep k [.ret e] [.code bytes, .exit] := by
  refine ⟨fun n t ht hr => ?_, fun n t ht hr => ?_⟩
  · rw [Chunk.size_code, Chunk.size_exit, Chunk.size_nil] at ht
    have hint : Int32 (((t - bytes.length : Nat) : Int) - 5) := hr.1
    rw [Chunk.fill, Chunk.fill, Chunk.fill, List.append_nil]
    refine flows_single (fun n => ?_) n
    refine h.exits (code_jmp hint) ?_ (by omega)
    rw [List.length_append, List.length_append, emiti32_length]
    have hop : jmpOpcode.length = 1 := rfl
    push_cast
    omega
  · have hdropped : Chunk.dropped [.code bytes, .exit] = [.code bytes] := rfl
    rw [hdropped, Chunk.size_code, Chunk.size_nil, Nat.add_zero] at ht
    rw [hdropped, Chunk.fill, Chunk.fill, List.append_nil, ht]
    exact flows_single (fun n => h.ends) n

/-- The code of a sound body, behind which nothing is dropped, leads to its end. -/
theorem execAll_ends {n : Nat} {x x' : Mem × σ} (hshape : Shape ss cs)
    (hsound : Stmt.lastSound ss = true) (h : World.execAll (W.exec n) ss x = .ok none x') :
    Chunk.size cs = Chunk.size (Chunk.dropped cs) := by
  cases hlast : Stmt.lastReturns ss with
  | false => rw [hshape.last hlast]
  | true => exact absurd rfl (W.execAll_value hlast hsound h)

end CodeOf

end Cup
