/-
  Pieces of x86-64 code and what they do.

  `Through`: wherever the bytes stand, they run from their first byte to past their last.
  `Does` compares such a run with a reference that has a memory but neither registers nor a
  stack: where the reference returns a value, the code gets to its end in a machine that agrees
  with the memory of the reference outside of the stack, the words above are as they were, and
  so are the registers that are to be kept. Its rules follow the reference: `Does.bind` puts two
  pieces behind each other, `Does.sets_then` and `Does.then_sets` are for instructions that the
  reference knows nothing of, `Does.read` and `Does.write` for its memory.
-/
import Cup.Lib.Run
import Cup.Lib.X64Run
import Cup.Lib.X64Memory

namespace Lib.X64

open Lib (Run Res Stop)

/-! ## Pieces in their place -/

section Through

variable {σ : Type} (ext : Reg → Machine → σ → Option (Machine × σ))

/-- Wherever the bytes stand, they run from their start to past their end. -/
def Through (bytes : List UInt8) (m : Machine) (x : σ) (m' : Machine) (x' : σ) : Prop :=
  ∀ pre post, Runs ext (pre ++ bytes ++ post) ⟨pre.length, m, x⟩ ⟨(pre ++ bytes).length, m', x'⟩

variable {ext} {a b bytes : List UInt8} {m m' m'' : Machine} {x x' x'' : σ} {i : Instr}

theorem Through.nil : Through ext [] m x m x := by
  intro pre post
  rw [List.append_nil]
  exact .refl

theorem Through.append (h : Through ext a m x m' x') (h' : Through ext b m' x' m'' x'') :
    Through ext (a ++ b) m x m'' x'' := by
  intro pre post
  have hleft := h pre (b ++ post)
  have hright := h' (pre ++ a) post
  simp only [List.append_assoc] at hleft hright ⊢
  exact hleft.trans hright

theorem Through.of_run (hc : Code bytes [i]) (h : i.run ext m x = some (m', x')) :
    Through ext bytes m x m' x' :=
  fun _ _ => .single (.next (Fetch.of_code hc).append h)

theorem Through.of_step (hc : Code bytes [i]) (h : i.step m = some m') :
    Through ext bytes m x m' x :=
  .of_run hc (run_of_step h)

end Through

/-! ## Code that sets a register -/

/-- `r` is `v`. Of the registers only those of `rs` may have changed, and the memory did not. -/
structure Sets (rs : List Reg) (r : Reg) (v : Word) (m m' : Machine) : Prop where
  value : m'.regs r = v
  mem : m'.mem = m.mem
  others : ∀ q, q ∉ rs → m'.regs q = m.regs q

theorem sets_set (m : Machine) (r : Reg) (v : Word) (f : Option Flags) :
    Sets [r] r v m { m.set r v with flags := f } where
  value := m.set_regs_self r v
  mem := rfl
  others _ h := Machine.set_regs_of_ne fun he => h (he ▸ List.mem_cons_self)

theorem Sets.trans {rs rs' : List Reg} {r r' : Reg} {v v' : Word} {m m' m'' : Machine}
    (h : Sets rs r v m m') (h' : Sets rs' r' v' m' m'') : Sets (rs ++ rs') r' v' m m'' where
  value := h'.value
  mem := h'.mem.trans h.mem
  others q hq := by
    rw [List.mem_append, not_or] at hq
    exact (h'.others q hq.2).trans (h.others q hq.1)

section SetsTo

variable {σ : Type} (ext : Reg → Machine → σ → Option (Machine × σ))

/-- The bytes are code without jumps that sets `r` to a value of the state it starts in. -/
structure SetsTo (bytes : List UInt8) (rs : List Reg) (r : Reg) (f : Machine → Word) : Prop where
  straight : Straight bytes
  sets : ∀ m x, ∃ m', Through ext bytes m x m' x ∧ Sets rs r (f m) m m'

variable {ext} {a b bytes : List UInt8} {rs rs' : List Reg} {r r' : Reg} {f g : Machine → Word}
  {i : Instr}

theorem setsTo_of_step (hc : Code bytes [i])
    (h : ∀ m, ∃ m', i.step m = some m' ∧ Sets rs r (f m) m m') : SetsTo ext bytes rs r f := by
  obtain ⟨_, hstep, -⟩ := h ⟨fun _ => 0, fun _ => 0, none⟩
  refine ⟨.of_code hc (Instr.distance_of_step hstep), fun m x => ?_⟩
  obtain ⟨m', hstep, hsets⟩ := h m
  exact ⟨m', .of_step hc hstep, hsets⟩

/-- One instruction that writes a register. -/
theorem setsTo_set (hc : Code bytes [i])
    (h : ∀ m, ∃ fl, i.step m = some { m.set r (f m) with flags := fl }) :
    SetsTo ext bytes [r] r f := by
  refine setsTo_of_step hc fun m => ?_
  obtain ⟨fl, hstep⟩ := h m
  exact ⟨_, hstep, sets_set m r (f m) fl⟩

/-- No code, for a register that has the value. -/
theorem setsTo_nil (h : ∀ m, m.regs r = f m) : SetsTo ext [] rs r f :=
  ⟨.nil, fun m _ => ⟨m, .nil, h m, rfl, fun _ _ => rfl⟩⟩

theorem SetsTo.congr (h : SetsTo ext bytes rs r f) (hfg : ∀ m, f m = g m) :
    SetsTo ext bytes rs r g := by
  refine ⟨h.straight, fun m x => ?_⟩
  rw [← hfg m]
  exact h.sets m x

/-- The second piece goes on with the register of the first. -/
theorem SetsTo.append (h : SetsTo ext a rs r f) (h' : SetsTo ext b rs' r' fun m => m.regs r) :
    SetsTo ext (a ++ b) (rs ++ rs') r' f := by
  refine ⟨h.straight.append h'.straight, fun m x => ?_⟩
  obtain ⟨m₁, hrun, hsets⟩ := h.sets m x
  obtain ⟨m₂, hrun', hsets'⟩ := h'.sets m₁ x
  have hvalue : m₁.regs r = f m := hsets.value
  exact ⟨m₂, hrun.append hrun', hvalue ▸ hsets.trans hsets'⟩

end SetsTo

/-! ## Memory of the reference -/

namespace Stack

variable {σ : Type} (S : Stack)

/-- A word outside of the stack is read. -/
def read (a : Word) : Run (Mem × σ) Word :=
  if S.Misses a then Run.gets fun s => s.1.load a else Run.stop (.fault "the stack is read")

/-- A word is written outside of the stack. -/
def write (a v : Word) : Run (Mem × σ) Unit :=
  if S.Misses a then Run.modify fun s => (s.1.store a v, s.2)
  else Run.stop (.fault "the stack is written")

variable {S} {a v w : Word} {s s' : Mem × σ}

theorem read_inv (h : S.read a s = .ok w s') : S.Misses a ∧ w = s.1.load a ∧ s' = s := by
  by_cases hm : S.Misses a
  · rw [read, if_pos hm] at h
    obtain ⟨rfl, rfl⟩ := Res.ok.inj h
    exact ⟨hm, rfl, rfl⟩
  · rw [read, if_neg hm] at h
    cases h

theorem write_inv {u : Unit} (h : S.write a v s = .ok u s') :
    S.Misses a ∧ s' = (s.1.store a v, s.2) := by
  by_cases hm : S.Misses a
  · rw [write, if_pos hm] at h
    exact ⟨hm, (Res.ok.inj h).2.symm⟩
  · rw [write, if_neg hm] at h
    cases h

/-- The words on the stack from `k` free bytes on, the last one pushed first. -/
def Words (S : Stack) (m : Mem) : Nat → List Word → Prop
  | _, [] => True
  | k, w :: ws => m.load (S.top k) = w ∧ Words S m (k + 8) ws

theorem words_append {m : Mem} {k : Nat} {us ws : List Word} :
    S.Words m k (us ++ ws) ↔ S.Words m k us ∧ S.Words m (k + 8 * us.length) ws := by
  induction us generalizing k with
  | nil => simp [Words]
  | cons u us ih =>
    have hnext : k + 8 * (u :: us).length = k + 8 + 8 * us.length := by
      rw [List.length_cons]
      omega
    rw [List.cons_append, Words, Words, ih, and_assoc, hnext]

theorem Words.keeps {m m' : Mem} {K k : Nat} {ws : List Word} (h : S.Words m k ws)
    (hm : S.Keeps K m m') (hK : K ≤ k) (hk : k + 8 * ws.length ≤ S.size) : S.Words m' k ws := by
  induction ws generalizing k with
  | nil => trivial
  | cons w ws ih =>
    rw [List.length_cons] at hk
    refine ⟨?_, ih h.2 (by omega) (by omega)⟩
    rw [(hm.mono hK).load (by omega)]
    exact h.1

end Stack

/-! ## Code and the reference -/

section Does

variable {σ α β : Type} (S : Stack) (ext : Reg → Machine → σ → Option (Machine × σ))

/-- The machine has `k` free bytes of stack, and `M` is its memory without the stack. -/
structure InStep (k : Nat) (m : Machine) (M : Mem) : Prop where
  top : m.regs .rsp = S.top k
  agree : S.Agree m.mem M

/-- From machines in `pre` with `k` free bytes of stack the bytes do what `f` does, and end in
    `post` of its value with `k'` free bytes. They keep the words of the stack from `K` on. -/
def Does (keep : Reg → Prop) (K k k' : Nat) (bytes : List UInt8) (pre : Machine → Prop)
    (f : Run (Mem × σ) α) (post : α → Machine → Prop) : Prop :=
  ∀ m M x v M' x', InStep S k m M → pre m → f (M, x) = .ok v (M', x') →
    ∃ m', Through ext bytes m x m' x' ∧ InStep S k' m' M' ∧ S.Keeps K m.mem m'.mem ∧
      (∀ r, keep r → m'.regs r = m.regs r) ∧ post v m'

variable {S} {ext} {keep keep' : Reg → Prop} {K K' k k₁ k' : Nat} {a b bytes : List UInt8}
  {pre pre' mid : Machine → Prop} {f : Run (Mem × σ) α} {post post' : α → Machine → Prop}
  {m m' : Machine} {M : Mem} {rs : List Reg} {r : Reg} {g : Machine → Word}

theorem InStep.sets {v : Word} (h : InStep S k m M) (hs : Sets rs r v m m') (hsp : .rsp ∉ rs) :
    InStep S k m' M where
  top := (hs.others _ hsp).trans h.top
  agree := hs.mem ▸ h.agree

theorem Does.mono (h : Does S ext keep K k k' bytes pre f post) (hkeep : ∀ r, keep' r → keep r)
    (hK : K ≤ K') (hpre : ∀ m, pre' m → pre m) (hpost : ∀ v m, post v m → post' v m) :
    Does S ext keep' K' k k' bytes pre' f post' := by
  intro m M x v M' x' hm hp hf
  obtain ⟨m', hrun, hm', hmem, hregs, hv⟩ := h m M x v M' x' hm (hpre m hp) hf
  exact ⟨m', hrun, hm', hmem.mono hK, fun r hr => hregs r (hkeep r hr), hpost v m' hv⟩

theorem Does.of_pre (h : Does S ext keep K k k' bytes pre f post) (hpre : ∀ m, pre' m → pre m) :
    Does S ext keep K k k' bytes pre' f post :=
  h.mono (fun _ h => h) (Nat.le_refl K) hpre fun _ _ h => h

theorem Does.of_keep (h : Does S ext keep K k k' bytes pre f post)
    (hkeep : ∀ r, keep' r → keep r) : Does S ext keep' K k k' bytes pre f post :=
  h.mono hkeep (Nat.le_refl K) (fun _ h => h) fun _ _ h => h

theorem Does.to_post (h : Does S ext keep K k k' bytes pre f post)
    (hpost : ∀ v m, post v m → post' v m) : Does S ext keep K k k' bytes pre f post' :=
  h.mono (fun _ h => h) (Nat.le_refl K) (fun _ h => h) hpost

/-- What does not depend on the machine. -/
theorem does_of_fact {p : Prop} (h : p → Does S ext keep K k k' bytes pre f post) :
    Does S ext keep K k k' bytes (fun m => p ∧ pre m) f post :=
  fun m M x v M' x' hm hp hf => h hp.1 m M x v M' x' hm hp.2 hf

theorem does_pure {v : α} (h : ∀ m, pre m → post v m) :
    Does S ext keep K k k [] pre (pure v) post := by
  intro m M x v' M' x' hm hp hf
  cases hf
  exact ⟨m, .nil, hm, .refl, fun _ _ => rfl, h m hp⟩

theorem Does.bind {g : α → Run (Mem × σ) β} {mid : α → Machine → Prop}
    {post : β → Machine → Prop} (hf : Does S ext keep K k k₁ a pre f mid)
    (hg : ∀ v, Does S ext keep K k₁ k' b (mid v) (g v) post) :
    Does S ext keep K k k' (a ++ b) pre (f >>= g) post := by
  intro m M x v M' x' hm hp hfg
  obtain ⟨u, ⟨M₁, x₁⟩, hu, hv⟩ := Run.bind_eq_ok.mp hfg
  obtain ⟨m₁, hrun, hm₁, hmem, hregs, hmid⟩ := hf m M x u M₁ x₁ hm hp hu
  obtain ⟨m₂, hrun', hm₂, hmem', hregs', hpost⟩ := hg u m₁ M₁ x₁ v M' x' hm₁ hmid hv
  exact ⟨m₂, hrun.append hrun', hm₂, hmem.trans hmem',
    fun r hr => (hregs' r hr).trans (hregs r hr), hpost⟩

/-- The reference goes on with its value only. -/
theorem Does.map {g : α → β} {post : β → Machine → Prop}
    (h : Does S ext keep K k k' bytes pre f fun v m => post (g v) m) :
    Does S ext keep K k k' bytes pre (f >>= fun v => pure (g v)) post := by
  have hlast : ∀ v, Does S ext keep K k' k' [] (fun m => post (g v) m) (pure (g v)) post :=
    fun v => does_pure fun _ hm => hm
  have hdoes := h.bind hlast
  rwa [List.append_nil] at hdoes

/-- Code for which the reference does nothing comes behind. -/
theorem Does.then_code {mid : α → Machine → Prop} (h : Does S ext keep K k k₁ a pre f mid)
    (h' : ∀ v, Does S ext keep K k₁ k' b (mid v) (pure () : Run (Mem × σ) Unit) fun _ m => post v m) :
    Does S ext keep K k k' (a ++ b) pre f post := by
  have hlast : ∀ v, Does S ext keep K k₁ k' b (mid v)
      ((pure () : Run (Mem × σ) Unit) >>= fun _ => pure v) post := fun v => (h' v).map
  have hdoes := h.bind hlast
  simp only [Run.pure_bind', Run.bind_pure] at hdoes
  exact hdoes

/-- A register that is kept has its value afterwards. -/
theorem Does.frame (h : Does S ext keep K k k' bytes pre f post) (hr : keep r) (w : Word) :
    Does S ext keep K k k' bytes (fun m => pre m ∧ m.regs r = w) f
      fun v m => post v m ∧ m.regs r = w := by
  intro m M x v M' x' hm hp hf
  obtain ⟨m', hrun, hm', hmem, hregs, hv⟩ := h m M x v M' x' hm hp.1 hf
  exact ⟨m', hrun, hm', hmem, hregs, hv, (hregs r hr).trans hp.2⟩

/-- The words that were pushed are there afterwards. -/
theorem Does.words (h : Does S ext keep K k k' bytes pre f post) (j : Nat) (ws : List Word)
    (hK : K ≤ j) (hj : j + 8 * ws.length ≤ S.size) :
    Does S ext keep K k k' bytes (fun m => pre m ∧ S.Words m.mem j ws) f
      fun v m => post v m ∧ S.Words m.mem j ws := by
  intro m M x v M' x' hm hp hf
  obtain ⟨m', hrun, hm', hmem, hregs, hv⟩ := h m M x v M' x' hm hp.1 hf
  exact ⟨m', hrun, hm', hmem, hregs, hv, hp.2.keeps hmem hK hj⟩

/-! ### Instructions that the reference does not have -/

/-- Code in front that sets a register. -/
theorem Does.sets_then (hs : SetsTo ext a rs r g) (h : Does S ext keep K k k' b mid f post)
    (hkeep : ∀ q ∈ rs, ¬ keep q) (hsp : .rsp ∉ rs)
    (hmid : ∀ m m', pre m → Sets rs r (g m) m m' → mid m') :
    Does S ext keep K k k' (a ++ b) pre f post := by
  intro m M x v M' x' hm hp hf
  obtain ⟨m₁, hrun, hsets⟩ := hs.sets m x
  obtain ⟨m₂, hrun', hm₂, hmem, hregs, hv⟩ :=
    h m₁ M x v M' x' (hm.sets hsets hsp) (hmid m m₁ hp hsets) hf
  rw [hsets.mem] at hmem
  refine ⟨m₂, hrun.append hrun', hm₂, hmem, fun q hq => ?_, hv⟩
  exact (hregs q hq).trans (hsets.others q fun hmem => hkeep q hmem hq)

/-- Code behind that sets a register. -/
theorem Does.then_sets (h : Does S ext keep K k k' a pre f post) (hs : SetsTo ext b rs r g)
    (hkeep : ∀ q ∈ rs, ¬ keep q) (hsp : .rsp ∉ rs)
    (hpost : ∀ v m m', post v m → Sets rs r (g m) m m' → post' v m') :
    Does S ext keep K k k' (a ++ b) pre f post' := by
  intro m M x v M' x' hm hp hf
  obtain ⟨m₁, hrun, hm₁, hmem, hregs, hv⟩ := h m M x v M' x' hm hp hf
  obtain ⟨m₂, hrun', hsets⟩ := hs.sets m₁ x'
  refine ⟨m₂, hrun.append hrun', hm₁.sets hsets hsp, ?_, fun q hq => ?_, hpost v m₁ m₂ hv hsets⟩
  · rw [hsets.mem]
    exact hmem
  · exact (hsets.others q fun hmem => hkeep q hmem hq).trans (hregs q hq)

/-- Code that only sets a register. -/
theorem does_sets {v : α} (hs : SetsTo ext a rs r g) (hkeep : ∀ q ∈ rs, ¬ keep q)
    (hsp : .rsp ∉ rs) (hpost : ∀ m m', pre m → Sets rs r (g m) m m' → post v m') :
    Does S ext keep K k k a pre (pure v) post := by
  have h : Does S ext keep K k k [] (post v) (pure v) post := does_pure fun _ h => h
  have hdoes := h.sets_then hs hkeep hsp hpost
  rwa [List.append_nil] at hdoes

/-! ### Memory -/

/-- A word is read into a register. -/
theorem does_read {p : Word} {post : Word → Machine → Prop} (hs : SetsTo ext a rs r g)
    (hkeep : ∀ q ∈ rs, ¬ keep q) (hsp : .rsp ∉ rs) (hg : ∀ m, pre m → g m = m.mem.load p)
    (hpost : ∀ v m m', pre m → Sets rs r v m m' → post v m') :
    Does S ext keep K k k a pre (S.read p) post := by
  intro m M x v M' x' hm hp hf
  obtain ⟨hmiss, rfl, hstate⟩ := Stack.read_inv hf
  obtain ⟨rfl, rfl⟩ := Prod.mk.inj hstate
  obtain ⟨m', hrun, hsets⟩ := hs.sets m x'
  have hv : g m = M'.load p := (hg m hp).trans (hm.agree.load hmiss)
  rw [hv] at hsets
  refine ⟨m', hrun, hm.sets hsets hsp, ?_, ?_, hpost _ m m' hp hsets⟩
  · rw [hsets.mem]
    exact .refl
  · exact fun q hq => hsets.others q fun hmem => hkeep q hmem hq

/-- One instruction writes a word. -/
theorem does_write {p v : Word} {i : Instr} {post : Unit → Machine → Prop} (hc : Code a [i])
    (hi : ∀ m, pre m → ∃ m', i.step m = some m' ∧ m'.regs = m.regs ∧ m'.mem = m.mem.store p v)
    (hpost : ∀ m m', pre m → m'.regs = m.regs → m'.mem = m.mem.store p v → post () m') :
    Does S ext keep K k k a pre (S.write p v) post := by
  intro m M x u M' x' hm hp hf
  obtain ⟨hmiss, hstate⟩ := Stack.write_inv hf
  obtain ⟨rfl, rfl⟩ := Prod.mk.inj hstate
  obtain ⟨m', hstep, hregs, hmem⟩ := hi m hp
  refine ⟨m', .of_step hc hstep, ⟨?_, ?_⟩, ?_, ?_, hpost m m' hp hregs hmem⟩
  · rw [hregs]
    exact hm.top
  · rw [hmem]
    exact hm.agree.store
  · rw [hmem]
    exact hmiss.keeps
  · intro q _
    rw [hregs]

/-! ### The stack -/

/-- A register is pushed. -/
theorem does_push {v : α} (hc : Code a [.push r]) (hk : 8 ≤ k) (hsize : k ≤ S.size) (hK : k ≤ K)
    (hkeep : ¬ keep .rsp) (hpost : ∀ m m', pre m → m'.mem.load (S.top (k - 8)) = m.regs r →
      (∀ q, q ≠ .rsp → m'.regs q = m.regs q) → S.Keeps k m.mem m'.mem → post v m') :
    Does S ext keep K k (k - 8) a pre (pure v) post := by
  intro m M x u M' x' hm hp hf
  cases hf
  have hsp : m.regs .rsp - 8 = S.top (k - 8) := by rw [hm.top, Stack.top_sub hk]
  have hstored := Stack.store_top (S := S) (m := m.mem) (v := m.regs r) (k := k - 8) (by omega)
  rw [Nat.sub_add_cancel hk] at hstored
  refine ⟨_, .of_step hc rfl, ⟨?_, ?_⟩, ?_, ?_, hpost m _ hp ?_ ?_ ?_⟩
  · exact (Machine.set_regs_self m .rsp _).trans hsp
  · change S.Agree (m.mem.store (m.regs .rsp - 8) (m.regs r)) M
    rw [hsp]
    exact hstored.1.trans hm.agree
  · change S.Keeps K m.mem (m.mem.store (m.regs .rsp - 8) (m.regs r))
    rw [hsp]
    exact hstored.2.mono hK
  · exact fun q hq => Machine.set_regs_of_ne fun he => hkeep (he ▸ hq)
  · change (m.mem.store (m.regs .rsp - 8) (m.regs r)).load _ = m.regs r
    rw [hsp, Mem.load_store]
  · exact fun q hq => Machine.set_regs_of_ne hq
  · change S.Keeps k m.mem (m.mem.store (m.regs .rsp - 8) (m.regs r))
    rw [hsp]
    exact hstored.2

/-- The stack pointer is moved. -/
theorem does_move {v : α} {i : Instr} (hc : Code a [i]) (hkeep : ¬ keep .rsp)
    (hi : ∀ m, m.regs .rsp = S.top k → ∃ fl, i.step m =
      some { m.set .rsp (S.top k') with flags := fl })
    (hpost : ∀ m m', pre m → m'.mem = m.mem → (∀ q, q ≠ .rsp → m'.regs q = m.regs q) → post v m') :
    Does S ext keep K k k' a pre (pure v) post := by
  intro m M x u M' x' hm hp hf
  cases hf
  obtain ⟨fl, hstep⟩ := hi m hm.top
  have hothers : ∀ q, q ≠ .rsp → (m.set .rsp (S.top k')).regs q = m.regs q :=
    fun q hq => Machine.set_regs_of_ne hq
  exact ⟨_, .of_step hc hstep, ⟨Machine.set_regs_self m .rsp _, hm.agree⟩, .refl,
    fun q hq => hothers q fun he => hkeep (he ▸ hq), hpost m _ hp rfl hothers⟩

/-- A word is popped into a register. -/
theorem does_pop {v : α} (hc : Code a [.pop r]) (hr : r ≠ .rsp) (hkeep : ¬ keep .rsp)
    (hkeep' : ¬ keep r) (hpost : ∀ m m', pre m → m'.mem = m.mem →
      m'.regs r = m.mem.load (S.top k) → (∀ q, q ≠ .rsp → q ≠ r → m'.regs q = m.regs q) → post v m') :
    Does S ext keep K k (k + 8) a pre (pure v) post := by
  intro m M x u M' x' hm hp hf
  cases hf
  have hothers : ∀ q, q ≠ .rsp → q ≠ r → (((m.set .rsp (m.regs .rsp + 8)).set r
      (m.mem.load (m.regs .rsp))).regs q = m.regs q) := fun q hsp hq => by
    rw [Machine.set_regs_of_ne hq, Machine.set_regs_of_ne hsp]
  refine ⟨_, .of_step hc rfl, ⟨?_, hm.agree⟩, .refl, ?_, hpost m _ hp rfl ?_ hothers⟩
  · rw [Machine.set_regs_of_ne (Ne.symm hr), Machine.set_regs_self, hm.top, Stack.top_add]
  · exact fun q hq => hothers q (fun he => hkeep (he ▸ hq)) fun he => hkeep' (he ▸ hq)
  · rw [Machine.set_regs_self, hm.top]

end Does

end Lib.X64
