/-
  Pieces of x86-64 code with branches, loops and an exit.

  `Reaches`: a run from the first byte of a piece to a place in it or behind it. `Flows` compares
  such a run with a reference that may give a value: where it gives none the code gets to `d`
  bytes behind its first byte, most often its end, and where it gives one to `t` bytes behind it,
  the exit. The rules are those of structured programs: `Flows.seq`, `Does.branch`, `Does.loop`
  and `Does.exits`.
-/
import Cup.Lib.X64Pieces

namespace Lib

/-- `g` goes on where `f` gives no value. -/
def Run.onNone {σ α : Type} (f g : Run σ (Option α)) : Run σ (Option α) :=
  f >>= fun r => r.elim g fun v => pure (some v)

theorem Run.onNone_pure {σ α : Type} (f : Run σ (Option α)) : f.onNone (pure none) = f := by
  have hsame : (fun r : Option α => r.elim (pure none : Run σ (Option α)) fun v => pure (some v)) =
      pure := by
    funext r
    cases r with
    | none => rfl
    | some v => rfl
  rw [onNone, hsame, Run.bind_pure]

namespace X64

/-! ## Places in a piece -/

section Reaches

variable {σ : Type} (ext : Reg → Machine → σ → Option (Machine × σ))

/-- Wherever the bytes stand, they run from their start to `off` bytes behind it. -/
def Reaches (bytes : List UInt8) (m : Machine) (x : σ) (off : Nat) (m' : Machine) (x' : σ) : Prop :=
  ∀ pre post, Runs ext (pre ++ bytes ++ post) ⟨pre.length, m, x⟩ ⟨pre.length + off, m', x'⟩

variable {ext} {a b bytes : List UInt8} {m m' m'' : Machine} {x x' x'' : σ} {off : Nat}
  {rel : Int} {cc : Cond} {fl : Flags}

theorem Through.reaches (h : Through ext bytes m x m' x') :
    Reaches ext bytes m x bytes.length m' x' := by
  intro pre post
  have hrun := h pre post
  rwa [List.length_append] at hrun

theorem Reaches.through (h : Reaches ext bytes m x bytes.length m' x') :
    Through ext bytes m x m' x' := by
  intro pre post
  rw [List.length_append]
  exact h pre post

/-- More bytes stand behind the piece. -/
theorem Reaches.left (h : Reaches ext a m x off m' x') : Reaches ext (a ++ b) m x off m' x' := by
  intro pre post
  have hrun := h pre (b ++ post)
  simp only [List.append_assoc] at hrun ⊢
  exact hrun

/-- A piece goes on behind one that was run to its end. -/
theorem Reaches.right (h : Through ext a m x m' x') (h' : Reaches ext b m' x' off m'' x'') :
    Reaches ext (a ++ b) m x (a.length + off) m'' x'' := by
  intro pre post
  have hleft := h pre (b ++ post)
  have hright := h' (pre ++ a) post
  simp only [List.append_assoc, List.length_append, Nat.add_assoc] at hleft hright ⊢
  exact hleft.trans hright

/-- Back at the start, the piece is run again. -/
theorem Reaches.again (h : Reaches ext bytes m x 0 m' x') (h' : Reaches ext bytes m' x' off m'' x'') :
    Reaches ext bytes m x off m'' x'' :=
  fun pre post => (h pre post).trans (h' pre post)

theorem reaches_jmp (hc : Code bytes [.jmp rel]) (hoff : (off : Int) = bytes.length + rel) :
    Reaches ext bytes m x off m x := by
  intro pre post
  refine .single (.jmp (Fetch.of_code hc).append ?_)
  rw [List.length_append]
  omega

theorem reaches_taken (hc : Code bytes [.jcc cc rel]) (hf : m.flags = some fl)
    (hcc : cc.holds fl = true) (hoff : (off : Int) = bytes.length + rel) :
    Reaches ext bytes m x off m x := by
  intro pre post
  refine .single (.taken (Fetch.of_code hc).append hf hcc ?_)
  rw [List.length_append]
  omega

/-- A jump behind a piece leads to its start. -/
theorem Through.back (h : Through ext a m x m' x') (hc : Code b [.jmp rel])
    (hrel : rel = -((a ++ b).length : Int)) : Reaches ext (a ++ b) m x 0 m' x' := by
  intro pre post
  have hrun := h pre (b ++ post)
  have hfetch : Fetch (pre ++ (a ++ b) ++ post) (pre ++ a).length (.jmp rel)
      (pre ++ (a ++ b)).length := by
    have hf : Fetch (pre ++ a ++ b ++ post) (pre ++ a).length (.jmp rel) (pre ++ a ++ b).length :=
      (Fetch.of_code hc).append
    rwa [List.append_assoc pre a b] at hf
  simp only [List.append_assoc] at hrun hfetch ⊢
  refine hrun.tail (.jmp hfetch ?_)
  rw [hrel, List.length_append]
  push_cast
  omega

theorem through_passed (hc : Code bytes [.jcc cc rel]) (hf : m.flags = some fl)
    (hcc : cc.holds fl = false) : Through ext bytes m x m x :=
  fun _ _ => .single (.passed (Fetch.of_code hc).append hf hcc)

end Reaches

/-! ## Code and a reference that may give a value -/

section Flows

variable {σ α : Type} (S : Stack) (ext : Reg → Machine → σ → Option (Machine × σ))

/-- With `k` free bytes of stack again, code has changed the memory without the stack to `M'`,
    and kept the words from `K` on and the registers to keep. -/
structure Stays (keep : Reg → Prop) (K k : Nat) (m m' : Machine) (M' : Mem) : Prop where
  step : InStep S k m' M'
  words : S.Keeps K m.mem m'.mem
  regs : ∀ r, keep r → m'.regs r = m.regs r

/-- The bytes do what `f` does. Without a value they get to `d` bytes behind their start, with a
    value to `t` bytes behind it, and `post` is so of the value. -/
def Flows (keep : Reg → Prop) (K k d t : Nat) (bytes : List UInt8) (f : Run (Mem × σ) (Option α))
    (post : α → Machine → Prop) : Prop :=
  ∀ m M x r M' x', InStep S k m M → f (M, x) = .ok r (M', x') →
    ∃ m', Reaches ext bytes m x (r.elim d fun _ => t) m' x' ∧
      Stays S keep K k m m' M' ∧ ∀ v, r = some v → post v m'

variable {S} {ext} {keep keep' : Reg → Prop} {K k d d' t : Nat} {a b c j bytes : List UInt8}
  {f g : Run (Mem × σ) (Option α)} {post : α → Machine → Prop} {m m' m'' : Machine} {M M' : Mem}

theorem Stays.trans (h : Stays S keep K k m m' M) (h' : Stays S keep K k m' m'' M') :
    Stays S keep K k m m'' M' where
  step := h'.step
  words := h.words.trans h'.words
  regs r hr := (h'.regs r hr).trans (h.regs r hr)

theorem Flows.of_keep (h : Flows S ext keep K k d t bytes f post)
    (hkeep : ∀ r, keep' r → keep r) : Flows S ext keep' K k d t bytes f post := by
  intro m M x r M' x' hm hf
  obtain ⟨m', hrun, hstays, hv⟩ := h m M x r M' x' hm hf
  exact ⟨m', hrun, ⟨hstays.step, hstays.words, fun q hq => hstays.regs q (hkeep q hq)⟩, hv⟩

/-- Code whose value is not asked for. -/
theorem Does.flows {β : Type} {f : Run (Mem × σ) β} {mid : β → Machine → Prop}
    (h : Does S ext keep K k k bytes (fun _ => True) f mid) :
    Flows S ext keep K k bytes.length t bytes (f >>= fun _ => pure none) post := by
  intro m M x r M' x' hm hf
  obtain ⟨v, ⟨M₁, x₁⟩, hv, hf⟩ := Run.bind_eq_ok.mp hf
  cases hf
  obtain ⟨m', hrun, hm', hwords, hregs, -⟩ := h m M x v M' x' hm trivial hv
  exact ⟨m', hrun.reaches, ⟨hm', hwords, hregs⟩, fun v hv => by cases hv⟩

theorem flows_nil : Flows S ext keep K k 0 t [] (pure none) post := by
  intro m M x r M' x' hm hf
  cases hf
  exact ⟨m, Through.nil.reaches, ⟨hm, .refl, fun _ _ => rfl⟩, fun v hv => by cases hv⟩

theorem flows_stop (e : Stop) : Flows S ext keep K k d t bytes (Run.stop e) post := by
  intro m M x r M' x' hm hf
  cases hf

/-- Two pieces with one exit. -/
theorem Flows.seq (ha : Flows S ext keep K k a.length t a f post)
    (hb : Flows S ext keep K k d' (t - a.length) b g post) (hd : d = a.length + d')
    (ht : a.length ≤ t) : Flows S ext keep K k d t (a ++ b) (f.onNone g) post := by
  intro m M x r M' x' hm hf
  obtain ⟨r₁, ⟨M₁, x₁⟩, h₁, hrest⟩ := Run.bind_eq_ok.mp hf
  obtain ⟨m₁, hrun₁, hstays₁, hv₁⟩ := ha m M x r₁ M₁ x₁ hm h₁
  cases r₁ with
  | some v =>
    cases hrest
    exact ⟨m₁, hrun₁.left, hstays₁, hv₁⟩
  | none =>
    obtain ⟨m₂, hrun₂, hstays₂, hv₂⟩ := hb m₁ M₁ x₁ r M' x' hstays₁.step hrest
    have hrun := Reaches.right (Reaches.through hrun₁) hrun₂
    refine ⟨m₂, ?_, hstays₁.trans hstays₂, hv₂⟩
    cases r with
    | none =>
      rw [Option.elim_none] at hrun ⊢
      rwa [hd]
    | some v =>
      rw [Option.elim_some] at hrun ⊢
      rwa [Nat.add_sub_cancel' ht] at hrun

/-- No code is needed for what changes nothing. -/
theorem Flows.idle (h : Flows S ext keep K k d t bytes f post)
    (hg : ∀ s r s', g s = .ok r s' → r = none ∧ s' = s) :
    Flows S ext keep K k d t bytes (f.onNone g) post := by
  intro m M x r M' x' hm hf
  obtain ⟨r₁, ⟨M₁, x₁⟩, h₁, hrest⟩ := Run.bind_eq_ok.mp hf
  cases r₁ with
  | some v =>
    cases hrest
    exact h m M x (some v) M' x' hm h₁
  | none =>
    obtain ⟨rfl, hsame⟩ := hg _ r _ hrest
    cases hsame
    exact h m M x none M' x' hm h₁

/-- A value is computed, and a jump leads to the exit. -/
theorem Does.exits {f : Run (Mem × σ) α} {rel : Int}
    (h : Does S ext keep K k k bytes (fun _ => True) f post) (hj : Code j [.jmp rel])
    (ht : (t : Int) = (bytes ++ j).length + rel) (hle : bytes.length ≤ t) :
    Flows S ext keep K k d t (bytes ++ j) (f >>= fun v => pure (some v)) post := by
  intro m M x r M' x' hm hf
  obtain ⟨v, ⟨M₁, x₁⟩, hv, hf⟩ := Run.bind_eq_ok.mp hf
  cases hf
  obtain ⟨m', hrun, hm', hwords, hregs, hpost⟩ := h m M x v M' x' hm trivial hv
  rw [List.length_append] at ht
  have hjump : Reaches ext j m' x' (t - bytes.length) m' x' := reaches_jmp hj (by omega)
  have hrun' := Reaches.right hrun hjump
  rw [Nat.add_sub_cancel' hle] at hrun'
  refine ⟨m', hrun', ⟨hm', hwords, hregs⟩, ?_⟩
  rintro _ ⟨⟩
  exact hpost

/-- A value is computed in front of the exit. -/
theorem Does.ends {f : Run (Mem × σ) α}
    (h : Does S ext keep K k k bytes (fun _ => True) f post) :
    Flows S ext keep K k d bytes.length bytes (f >>= fun v => pure (some v)) post := by
  intro m M x r M' x' hm hf
  obtain ⟨v, ⟨M₁, x₁⟩, hv, hf⟩ := Run.bind_eq_ok.mp hf
  cases hf
  obtain ⟨m', hrun, hm', hwords, hregs, hpost⟩ := h m M x v M' x' hm trivial hv
  refine ⟨m', hrun.reaches, ⟨hm', hwords, hregs⟩, ?_⟩
  rintro _ ⟨⟩
  exact hpost

/-- The flags are those of a test for which `cc` holds where the value is 0. -/
def Tested (cc : Cond) (v : Word) (m : Machine) : Prop :=
  ∃ fl, m.flags = some fl ∧ (cc.holds fl = true ↔ v = 0)

/-- An instruction that only sets the flags. -/
theorem does_flags {β : Type} {v : β} {i : Instr} {g : Machine → Flags} {pre : Machine → Prop}
    {mid : β → Machine → Prop} (hc : Code a [i])
    (hi : ∀ m, i.step m = some { m with flags := some (g m) })
    (hmid : ∀ m, pre m → mid v { m with flags := some (g m) }) :
    Does S ext keep K k k a pre (pure v) mid := by
  intro m M x u M' x' hm hp hf
  cases hf
  exact ⟨_, .of_step hc (hi m), ⟨hm.top, hm.agree⟩, .refl, fun _ _ => rfl, hmid m hp⟩

section Conditions

variable {f : Run (Mem × σ) Word} {cc : Cond}

/-- A condition is computed, and a jump decides: it is taken where the value is 0. -/
theorem Does.decides {rel : Int} {M' : Mem} {x x' : σ} {v : Word}
    (h : Does S ext keep K k k c (fun _ => True) f (Tested cc)) (hj : Code j [.jcc cc rel])
    (hm : InStep S k m M) (hf : f (M, x) = .ok v (M', x')) : ∃ m', Stays S keep K k m m' M' ∧
      (v = 0 → ∀ off : Nat, (off : Int) = (c ++ j).length + rel → c.length ≤ off →
        Reaches ext (c ++ j) m x off m' x') ∧
      (v ≠ 0 → Through ext (c ++ j) m x m' x') := by
  obtain ⟨m', hrun, hm', hwords, hregs, fl, hfl, hcc⟩ := h m M x v M' x' hm trivial hf
  refine ⟨m', ⟨hm', hwords, hregs⟩, fun hv off hoff hle => ?_, fun hv => ?_⟩
  · rw [List.length_append] at hoff
    have hjump : Reaches ext j m' x' (off - c.length) m' x' :=
      reaches_taken hj hfl (hcc.mpr hv) (by omega)
    have hrun' := Reaches.right hrun hjump
    rwa [Nat.add_sub_cancel' hle] at hrun'
  · exact hrun.append (through_passed hj hfl (Bool.eq_false_iff.mpr fun h => hv (hcc.mp h)))

/-- A piece that is skipped where the condition is 0. -/
theorem Does.branch {rel : Int} (h : Does S ext keep K k k c (fun _ => True) f (Tested cc))
    (hj : Code j [.jcc cc rel]) (hrel : rel = d')
    (hb : Flows S ext keep K k d' (t - (c ++ j).length) b g post)
    (hd : d = (c ++ j).length + d') (ht : (c ++ j).length ≤ t) :
    Flows S ext keep K k d t (c ++ j ++ b) (f >>= fun v => if v = 0 then pure none else g)
      post := by
  intro m M x r M' x' hm hf
  obtain ⟨v, ⟨M₁, x₁⟩, hv, hrest⟩ := Run.bind_eq_ok.mp hf
  obtain ⟨m₁, hstays₁, hzero, hother⟩ := h.decides hj hm hv
  by_cases hv0 : v = 0
  · rw [if_pos hv0] at hrest
    cases hrest
    refine ⟨m₁, Reaches.left (hzero hv0 _ ?_ ?_), hstays₁, fun v hv => by cases hv⟩
    · rw [Option.elim_none, hd, hrel]
      push_cast
      rfl
    · rw [Option.elim_none, hd, List.length_append]
      omega
  · rw [if_neg hv0] at hrest
    obtain ⟨m₂, hrun₂, hstays₂, hv₂⟩ := hb m₁ M₁ x₁ r M' x' hstays₁.step hrest
    have hrun := Reaches.right (hother hv0) hrun₂
    refine ⟨m₂, ?_, hstays₁.trans hstays₂, hv₂⟩
    cases r with
    | none =>
      rw [Option.elim_none] at hrun ⊢
      rwa [hd]
    | some v =>
      rw [Option.elim_some] at hrun ⊢
      rwa [Nat.add_sub_cancel' ht] at hrun

/-- One turn of a loop, and what comes after it. -/
theorem Does.loop {rel back : Int} {p : List UInt8} {again : Run (Mem × σ) (Option α)}
    (h : Does S ext keep K k k c (fun _ => True) f (Tested cc))
    (hj : Code j [.jcc cc rel]) (hrel : rel = (b ++ p).length)
    (hp : Code p [.jmp back]) (hback : back = -((c ++ j ++ b ++ p).length : Int))
    (hb : Flows S ext keep K k b.length (t - (c ++ j).length) b g post)
    (ht : (c ++ j).length ≤ t) (hd : d = (c ++ j ++ b ++ p).length)
    (hagain : Flows S ext keep K k d t (c ++ j ++ b ++ p) again post) :
    Flows S ext keep K k d t (c ++ j ++ b ++ p)
      (f >>= fun v => if v = 0 then pure none else g.onNone again) post := by
  intro m M x r M' x' hm hf
  obtain ⟨v, ⟨M₁, x₁⟩, hv, hrest⟩ := Run.bind_eq_ok.mp hf
  obtain ⟨m₁, hstays₁, hzero, hother⟩ := h.decides hj hm hv
  by_cases hv0 : v = 0
  · rw [if_pos hv0] at hrest
    cases hrest
    refine ⟨m₁, ?_, hstays₁, fun v hv => by cases hv⟩
    rw [List.append_assoc] at hd ⊢
    have hlen : d = (c ++ j).length + (b ++ p).length := hd.trans List.length_append
    refine Reaches.left (hzero hv0 _ ?_ ?_)
    · rw [Option.elim_none, hlen, hrel]
      push_cast
      rfl
    · rw [Option.elim_none, hlen, List.length_append]
      omega
  · rw [if_neg hv0] at hrest
    obtain ⟨r₂, ⟨M₂, x₂⟩, h₂, hrest⟩ := Run.bind_eq_ok.mp hrest
    obtain ⟨m₂, hrun₂, hstays₂, hv₂⟩ := hb m₁ M₁ x₁ r₂ M₂ x₂ hstays₁.step h₂
    have hrun := Reaches.right (hother hv0) hrun₂
    cases r₂ with
    | some v =>
      cases hrest
      refine ⟨m₂, Reaches.left ?_, hstays₁.trans hstays₂, hv₂⟩
      rw [Option.elim_some] at hrun ⊢
      rwa [Nat.add_sub_cancel' ht] at hrun
    | none =>
      obtain ⟨m₃, hrun₃, hstays₃, hv₃⟩ := hagain m₂ M₂ x₂ r M' x' hstays₂.step hrest
      refine ⟨m₃, Reaches.again ?_ hrun₃, (hstays₁.trans hstays₂).trans hstays₃, hv₃⟩
      -- the jump behind the body leads to the condition
      rw [Option.elim_none, ← List.length_append] at hrun
      exact (Reaches.through hrun).back hp hback

end Conditions

end Flows

end X64

end Lib
