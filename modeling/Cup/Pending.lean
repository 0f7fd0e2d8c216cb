/-
  Code whose returns are not patched yet (`codegen_func`, `src/codegen/x64codegen.c`).

  A `return` is emitted as a jump of distance 0, and its offset is recorded. A body is a list of
  chunks: code, and such jumps (`exit`). `raw` are the bytes as they are emitted, `fill t` those
  with the jumps to `t` bytes behind the first one. The last jump is dropped where nothing
  follows it (`dropLastReturn_chunks`), and the others are patched (`patchReturns_chunks`).
-/
import Cup.Operand
import Cup.Saved

namespace Cup

open Lib (Stop Run Res)
open Lib.X64

/-! ## Chunks -/

/-- Code, or the jump of a `return`. -/
inductive Chunk where
  | code (bytes : Bytes)
  | exit

namespace Chunk

/-- The number of bytes. -/
def size : List Chunk → Nat
  | [] => 0
  | .code b :: cs => b.length + size cs
  | .exit :: cs => 5 + size cs

/-- The bytes as they are emitted. -/
def raw : List Chunk → Bytes
  | [] => []
  | .code b :: cs => b ++ raw cs
  | .exit :: cs => jmpOpcode ++ emiti32 0 ++ raw cs

/-- The bytes when the returns jump to `t` bytes behind the first one. -/
def fill : Nat → List Chunk → Bytes
  | _, [] => []
  | t, .code b :: cs => b ++ fill (t - b.length) cs
  | t, .exit :: cs => jmpOpcode ++ emiti32 ((t : Int) - 5) ++ fill (t - 5) cs

/-- The offsets that are recorded, of chunks from the offset `at_` on. -/
def sites : Nat → List Chunk → List Nat
  | _, [] => []
  | at_, .code b :: cs => sites (at_ + b.length) cs
  | at_, .exit :: cs => (at_ + 1) :: sites (at_ + 5) cs

/-- The distances of the jumps have 32 bits. -/
def InRange : Nat → List Chunk → Prop
  | _, [] => True
  | t, .code b :: cs => InRange (t - b.length) cs
  | t, .exit :: cs => Int32 ((t : Int) - 5) ∧ InRange (t - 5) cs

/-- A return behind which the code ends is dropped. -/
def dropped : List Chunk → List Chunk
  | [] => []
  | .code b :: cs => .code b :: dropped cs
  | .exit :: cs => if size cs = 0 then cs else .exit :: dropped cs

variable {a b cs : List Chunk} {t at_ : Nat}

@[simp] theorem size_nil : size [] = 0 := rfl

@[simp] theorem size_code (bytes : Bytes) : size (.code bytes :: cs) = bytes.length + size cs := rfl

@[simp] theorem size_exit : size (.exit :: cs) = 5 + size cs := rfl

@[simp] theorem size_append : size (a ++ b) = size a + size b := by
  induction a with
  | nil => exact (Nat.zero_add _).symm
  | cons c a ih =>
    cases c with
    | code bytes => rw [List.cons_append, size_code, size_code, ih, Nat.add_assoc]
    | exit => rw [List.cons_append, size_exit, size_exit, ih, Nat.add_assoc]

theorem raw_length : (raw cs).length = size cs := by
  induction cs with
  | nil => rfl
  | cons c cs ih =>
    cases c with
    | code bytes => rw [raw, List.length_append, ih, size_code]
    | exit =>
      rw [raw, List.length_append, List.length_append, emiti32_length, ih, size_exit]
      rfl

theorem fill_length : (fill t cs).length = size cs := by
  induction cs generalizing t with
  | nil => rfl
  | cons c cs ih =>
    cases c with
    | code bytes => rw [fill, List.length_append, ih, size_code]
    | exit =>
      rw [fill, List.length_append, List.length_append, emiti32_length, ih, size_exit]
      rfl

theorem raw_append : raw (a ++ b) = raw a ++ raw b := by
  induction a with
  | nil => rfl
  | cons c a ih =>
    cases c with
    | code bytes => rw [List.cons_append, raw, raw, ih, List.append_assoc]
    | exit => rw [List.cons_append, raw, raw, ih, List.append_assoc (jmpOpcode ++ emiti32 0)]

theorem fill_append : fill t (a ++ b) = fill t a ++ fill (t - size a) b := by
  induction a generalizing t with
  | nil => rfl
  | cons c a ih =>
    cases c with
    | code bytes => rw [List.cons_append, fill, fill, ih, size_code, List.append_assoc, Nat.sub_sub]
    | exit =>
      rw [List.cons_append, fill, fill, ih, size_exit, List.append_assoc (jmpOpcode ++ _),
        Nat.sub_sub]

theorem sites_append : sites at_ (a ++ b) = sites at_ a ++ sites (at_ + size a) b := by
  induction a generalizing at_ with
  | nil => rfl
  | cons c a ih =>
    cases c with
    | code bytes => rw [List.cons_append, sites, sites, ih, size_code, Nat.add_assoc]
    | exit => rw [List.cons_append, sites, sites, ih, size_exit, Nat.add_assoc, List.cons_append]

theorem inRange_append : InRange t (a ++ b) ↔ InRange t a ∧ InRange (t - size a) b := by
  induction a generalizing t with
  | nil => exact (and_iff_right trivial).symm
  | cons c a ih =>
    cases c with
    | code bytes => rw [List.cons_append, InRange, InRange, ih, size_code, Nat.sub_sub]
    | exit => rw [List.cons_append, InRange, InRange, ih, size_exit, Nat.sub_sub, and_assoc]

/-! ## Empty code -/

theorem raw_of_size (h : size cs = 0) : raw cs = [] := by
  rw [← List.length_eq_zero_iff, raw_length, h]

theorem fill_of_size (h : size cs = 0) : fill t cs = [] := by
  rw [← List.length_eq_zero_iff, fill_length, h]

theorem not_exit_of_size (h : size (.exit :: cs) = 0) : False := by
  rw [size_exit] at h
  omega

theorem sites_of_size (h : size cs = 0) : sites at_ cs = [] := by
  induction cs generalizing at_ with
  | nil => rfl
  | cons c cs ih =>
    cases c with
    | code bytes =>
      rw [size_code] at h
      exact ih (by omega)
    | exit => exact (not_exit_of_size h).elim

theorem dropped_of_size (h : size cs = 0) : dropped cs = cs := by
  induction cs with
  | nil => rfl
  | cons c cs ih =>
    cases c with
    | code bytes =>
      rw [size_code] at h
      rw [dropped, ih (by omega)]
    | exit => exact (not_exit_of_size h).elim

/-! ## The last return -/

/-- Code behind it keeps a return. -/
theorem dropped_append (h : size b ≠ 0) : dropped (a ++ b) = a ++ dropped b := by
  induction a with
  | nil => rfl
  | cons c a ih =>
    cases c with
    | code bytes => rw [List.cons_append, dropped, ih, List.cons_append]
    | exit =>
      have hne : size (a ++ b) ≠ 0 := by
        rw [size_append]
        omega
      rw [List.cons_append, dropped, if_neg hne, ih, List.cons_append]

theorem dropped_append_of_size (h : size b = 0) : dropped (a ++ b) = dropped a ++ b := by
  induction a with
  | nil => exact dropped_of_size h
  | cons c a ih =>
    cases c with
    | code bytes => rw [List.cons_append, dropped, dropped, ih, List.cons_append]
    | exit =>
      have hsize : size (a ++ b) = size a := by rw [size_append, h, Nat.add_zero]
      rw [List.cons_append, dropped, dropped, hsize, ih]
      split
      · rfl
      · rfl

theorem dropped_code_last {p : Bytes} (h : 0 < p.length) :
    dropped (a ++ [.code p]) = a ++ [.code p] := by
  have hsize : size [.code p] ≠ 0 := by
    rw [size_code]
    omega
  rw [dropped_append hsize]
  rfl

/-- The code ends in code, or in a return. -/
theorem dropped_cases (cs : List Chunk) :
    (dropped cs = cs ∧ ∀ at_, ∀ p ∈ sites at_ cs, p + 4 < at_ + size cs) ∨
      ∃ a b, cs = a ++ .exit :: b ∧ size b = 0 ∧ dropped cs = a ++ b := by
  induction cs with
  | nil => exact .inl ⟨rfl, fun _ _ hp => by cases hp⟩
  | cons c cs ih =>
    cases c with
    | code bytes =>
      rcases ih with ⟨hd, hsites⟩ | ⟨a, b, rfl, hb, hd⟩
      · refine .inl ⟨by rw [dropped, hd], fun at_ p hp => ?_⟩
        have hlt := hsites (at_ + bytes.length) p hp
        rwa [size_code, ← Nat.add_assoc]
      · exact .inr ⟨.code bytes :: a, b, rfl, hb, by rw [dropped, hd, List.cons_append]⟩
    | exit =>
      by_cases hzero : size cs = 0
      · exact .inr ⟨[], cs, rfl, hzero, if_pos hzero⟩
      · rcases ih with ⟨hd, hsites⟩ | ⟨a, b, rfl, hb, hd⟩
        · refine .inl ⟨by rw [dropped, if_neg hzero, hd], fun at_ p hp => ?_⟩
          rw [size_exit]
          rcases List.mem_cons.mp hp with rfl | hp
          · omega
          · have hlt := hsites (at_ + 5) p hp
            omega
        · exact .inr ⟨.exit :: a, b, rfl, hb, by rw [dropped, if_neg hzero, hd, List.cons_append]⟩

end Chunk

/-! ## Chunks in the buffer -/

/-- From `s` to `s'` the chunks were appended, and their returns recorded. -/
structure EmitsChunks (s s' : GenState) (cs : List Chunk) : Prop where
  buf : s'.buf = s.buf ++ Chunk.raw cs
  returns : s'.returns = s.returns ++ Chunk.sites s.buf.length cs
  used : ∀ r, hasReg s.fn.csUsed r = true → hasReg s'.fn.csUsed r = true
  reallocs : s'.reallocs = s.reallocs

theorem Appended.chunk {s s' : GenState} {bytes : Bytes} (h : Appended s s' bytes) :
    EmitsChunks s s' [.code bytes] where
  buf := by rw [h.buf, Chunk.raw, Chunk.raw, List.append_nil]
  returns := by rw [h.returns, Chunk.sites, Chunk.sites, List.append_nil]
  used := h.used
  reallocs := h.reallocs

theorem EmitsChunks.trans {s s' s'' : GenState} {a b : List Chunk} (h : EmitsChunks s s' a)
    (h' : EmitsChunks s' s'' b) : EmitsChunks s s'' (a ++ b) where
  buf := by rw [h'.buf, h.buf, Chunk.raw_append, List.append_assoc]
  returns := by
    rw [h'.returns, h.returns, h.buf, List.length_append, Chunk.raw_length, Chunk.sites_append,
      List.append_assoc]
  used r hr := h'.used r (h.used r hr)
  reallocs := h'.reallocs.trans h.reallocs

/-- The distance of a jump is patched, or it does not fit. -/
theorem patchRel_sat {s : GenState} {patch target : Nat} {a b : Bytes} {old : Int}
    {Q : Unit → GenState → Prop} (hbuf : s.buf = a ++ emiti32 old ++ b) (hpatch : patch = a.length)
    (hq : Int32 ((target : Int) - (patch + 4)) →
      Q () { s with buf := a ++ emiti32 ((target : Int) - (patch + 4)) ++ b }) :
    (patchRel patch target).Sat s Q GivesUp := by
  unfold patchRel
  dsimp only
  split
  · exact rfl
  · rename_i hrange
    have hlen : (emiti32 ((target : Int) - (patch + 4))).length = (emiti32 old).length := by
      rw [emiti32_length, emiti32_length]
    rw [Run.sat_of_ok (patchBytes_eq hbuf hpatch hlen)]
    refine hq ?_
    unfold int32Max at hrange
    unfold Int32
    omega

/-- The returns jump to the end of the code. -/
theorem patchReturns_chunks {s : GenState} {pre : Bytes} {cs : List Chunk}
    (hbuf : s.buf = pre ++ Chunk.raw cs) :
    (patchReturns (Chunk.sites pre.length cs)).Sat s
      (fun _ s' => s' = { s with buf := pre ++ Chunk.fill (Chunk.size cs) cs } ∧
        Chunk.InRange (Chunk.size cs) cs) GivesUp := by
  induction cs generalizing pre with
  | nil =>
    refine ⟨?_, trivial⟩
    rw [Chunk.fill]
    exact congrArg (fun b => { s with buf := b }) hbuf
  | cons c cs ih =>
    cases c with
    | code bytes =>
      rw [Chunk.raw, ← List.append_assoc] at hbuf
      have hsat := ih hbuf
      rw [List.length_append] at hsat
      refine Run.sat_mono hsat ?_ fun _ _ h => h
      rintro _ s' ⟨rfl, hrange⟩
      rw [Chunk.fill, Chunk.InRange, Chunk.size_code, Nat.add_sub_cancel_left, ← List.append_assoc]
      exact ⟨rfl, hrange⟩
    | exit =>
      rw [Chunk.raw, ← List.append_assoc] at hbuf
      have hlen : (pre ++ (jmpOpcode ++ emiti32 0)).length = pre.length + 5 := by
        rw [List.length_append, List.length_append, emiti32_length]
        rfl
      have hsat := ih hbuf
      rw [hlen] at hsat
      rw [Chunk.sites, patchReturns]
      refine sat_then hsat ?_
      rintro _ s' ⟨rfl, hrange⟩
      rw [Run.sat_bind, Run.sat_get]
      have hdist : ((pre ++ (jmpOpcode ++ emiti32 0) ++ Chunk.fill (Chunk.size cs) cs).length : Int) -
          ((pre.length + 1 : Nat) + 4) = ((5 + Chunk.size cs : Nat) : Int) - 5 := by
        rw [List.length_append, hlen, Chunk.fill_length]
        push_cast
        omega
      have hsplit : pre ++ (jmpOpcode ++ emiti32 0) ++ Chunk.fill (Chunk.size cs) cs =
          pre ++ jmpOpcode ++ emiti32 0 ++ Chunk.fill (Chunk.size cs) cs := by
        simp only [List.append_assoc]
      refine patchRel_sat hsplit ?_ ?_
      · rw [List.length_append]
        rfl
      · intro hint
        rw [hdist] at hint ⊢
        rw [Chunk.size_exit, Chunk.fill, Chunk.InRange, Nat.add_sub_cancel_left]
        refine ⟨?_, hint, hrange⟩
        simp only [List.append_assoc]

/-- The last return is dropped where the code ends with it. -/
theorem dropLastReturn_chunks {s : GenState} {pre : Bytes} {cs : List Chunk}
    (hbuf : s.buf = pre ++ Chunk.raw cs) (hreturns : s.returns = Chunk.sites pre.length cs) :
    dropLastReturn s = .ok () { s with buf := pre ++ Chunk.raw (Chunk.dropped cs)
                                       returns := Chunk.sites pre.length (Chunk.dropped cs) } := by
  have hsame : { s with buf := pre ++ Chunk.raw cs, returns := Chunk.sites pre.length cs } = s := by
    rw [← hbuf, ← hreturns]
  rw [dropLastReturn, Run.modify_apply, hreturns]
  rcases Chunk.dropped_cases cs with ⟨hd, hsites⟩ | ⟨a, b, rfl, hb, hd⟩
  · rw [hd, hsame]
    cases hlast : (Chunk.sites pre.length cs).getLast? with
    | none => rfl
    | some ptr =>
      have hlt := hsites pre.length ptr (List.mem_of_getLast? hlast)
      have hne : ptr + 4 ≠ s.buf.length := by
        rw [hbuf, List.length_append, Chunk.raw_length]
        omega
      dsimp only
      rw [if_neg fun h => hne h.1]
  · have hraw : s.buf = pre ++ Chunk.raw a ++ (jmpOpcode ++ emiti32 0) := by
      rw [hbuf, Chunk.raw_append, Chunk.raw, Chunk.raw_of_size hb, List.append_nil,
        List.append_assoc]
    have hpre : (pre ++ Chunk.raw a).length = pre.length + Chunk.size a := by
      rw [List.length_append, Chunk.raw_length]
    have hlen : s.buf.length = pre.length + Chunk.size a + 5 := by
      rw [hraw, List.length_append, hpre, List.length_append, emiti32_length]
      rfl
    have hlast : Chunk.sites pre.length (a ++ .exit :: b) =
        Chunk.sites pre.length a ++ [pre.length + Chunk.size a + 1] := by
      rw [Chunk.sites_append, Chunk.sites, Chunk.sites_of_size hb]
    have hop : s.buf[pre.length + Chunk.size a + 1 - 1]? = some 0xE9 := by
      rw [Nat.add_sub_cancel, hraw, ← hpre, List.getElem?_append_right (Nat.le_refl _), Nat.sub_self]
      rfl
    have htake : s.buf.take (s.buf.length - 5) = pre ++ Chunk.raw a := by
      rw [hlen, Nat.add_sub_cancel, hraw, ← hpre, List.take_left]
    rw [hd, hlast, List.getLast?_concat, List.dropLast_concat]
    dsimp only
    rw [if_pos ⟨by omega, by omega, hop⟩, htake, Chunk.raw_append, Chunk.raw_of_size hb,
      List.append_nil, Chunk.sites_append, Chunk.sites_of_size hb, List.append_nil]

/-- What `codegen_func` does behind the trees, whose code are the chunks. -/
theorem finishFunction_chunks {t : GenState} {pre : Bytes} {cs : List Chunk}
    (hbuf : t.buf = pre ++ prologueBytes allUsed ++ Chunk.raw cs)
    (hreturns : t.returns = Chunk.sites (pre ++ prologueBytes allUsed).length cs) :
    (finishFunction (pre.length + 4) (pre.length + 8)).Sat t
      (fun _ t' => t'.fn = t.fn ∧ t'.range = t.range ∧ t'.reallocs = t.reallocs ∧
        t'.buf = pre ++ prologueBytes t.fn.csUsed ++
          Chunk.fill (Chunk.size (Chunk.dropped cs)) (Chunk.dropped cs) ++
          epilogueBytes t.fn.csUsed ∧
        Chunk.InRange (Chunk.size (Chunk.dropped cs)) (Chunk.dropped cs)) GivesUp := by
  have hlen : (pre ++ prologueBytes allUsed).length =
      (pre ++ prologueBytes t.fn.csUsed).length := by
    rw [List.length_append, List.length_append, prologueBytes_length, prologueBytes_length]
  rw [hlen] at hreturns
  unfold Run.Sat
  rw [finishFunction_eq hbuf]
  refine Run.sat_bind.mpr ?_
  have hdrop : dropLastReturn
      { t with buf := pre ++ prologueBytes t.fn.csUsed ++ Chunk.raw cs } = .ok () _ :=
    dropLastReturn_chunks rfl hreturns
  rw [Run.sat_of_ok hdrop, Run.sat_bind, Run.sat_get]
  refine sat_then (patchReturns_chunks rfl) ?_
  rintro _ t' ⟨rfl, hrange⟩
  rw [epilogue, Run.sat_bind, Run.sat_get]
  refine ⟨rfl, rfl, rfl, ?_, hrange⟩
  rw [epilogueBytes]
  simp only [List.append_assoc]

end Cup
