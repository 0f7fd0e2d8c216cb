/-
  Runs of the vector operations of `utils.c`, on any number of vectors that start zeroed.

  The vectors are named by numbers; a vector that `push_vector` or `fpush_vector` consumes is
  gone. Beside them runs the list model, in which a vector is the list of its bytes. `Refines`
  relates the two: the bytes agree, and each vector owns the buffer that its capacity promises.
  A pop that takes the last byte releases the buffer and keeps the capacity, so a run implements
  the list model exactly when each pop leaves a byte (`implements_iff`).
-/
import Cup.Vector
import Cup.Lexer
import Mathlib.Logic.Function.Basic

namespace Cup

open Lib (Stop)

/-! ## Operations -/

/-- An operation; a `split` takes the bytes of `src` from `size` on. -/
inductive VecOp where
  | push (i : Nat) (block : Bytes)
  | fpush (i : Nat) (block : Bytes)
  | pop (i n : Nat)
  | fpop (i n : Nat)
  | pushVector (dest src : Nat)
  | fpushVector (dest src : Nat)
  | split (dest src size : Nat)

/-- The vectors of a program; `none` was consumed. -/
abbrev Vectors : Type := Nat → Option (CVec UInt8)

/-- The list model of the vectors. -/
abbrev Lists : Type := Nat → Option Bytes

/-- An operation on the vector `i`. -/
def Vectors.one (v : Vectors) (i : Nat) (f : CVec UInt8 → Except Stop (CVec UInt8)) :
    Except Stop Vectors :=
  match v i with
  | some c => (f c).map fun c' => Function.update v i (some c')
  | none => .error (.fault "use of a consumed vector")

/-- An operation on the vectors `i` and `j`; `f` says what is left of `j`. -/
def Vectors.two (v : Vectors) (i j : Nat)
    (f : CVec UInt8 → CVec UInt8 → Except Stop (CVec UInt8 × Option (CVec UInt8))) :
    Except Stop Vectors :=
  match v i, v j with
  | some d, some s => (f d s).map fun r => Function.update (Function.update v i (some r.1)) j r.2
  | _, _ => .error (.fault "use of a consumed vector")

/-- One call. -/
def VecOp.step (v : Vectors) : VecOp → Except Stop Vectors
  | .push i block => v.one i fun c => vectorPush 1 c block
  | .fpush i block => v.one i fun c => vectorFpush 1 c block
  | .pop i n => v.one i fun c => vectorPop c n
  | .fpop i n => v.one i fun c => vectorFpop c n
  | .pushVector d s => v.two d s fun c c' => (Cup.pushVector 1 c c').map fun r => (r, none)
  | .fpushVector d s => v.two d s fun c c' => (Cup.fpushVector 1 c c').map fun r => (r, none)
  | .split d s size => v.two d s fun c c' =>
      (splitVector 1 c c' size).map fun r => (r.1, some r.2)

def Lists.one (m : Lists) (i : Nat) (f : Bytes → Bytes) : Lists :=
  Function.update m i ((m i).map f)

def Lists.two (m : Lists) (i j : Nat) (f : Bytes → Bytes → Bytes × Option Bytes) : Lists :=
  match m i, m j with
  | some d, some s => Function.update (Function.update m i (some (f d s).1)) j (f d s).2
  | _, _ => m

/-- The call on lists: append, prepend, drop at the end, drop in front, concatenate, split. -/
def VecOp.listStep (m : Lists) : VecOp → Lists
  | .push i block => m.one i (· ++ block)
  | .fpush i block => m.one i (block ++ ·)
  | .pop i n => m.one i fun l => l.take (l.length - n)
  | .fpop i n => m.one i fun l => l.drop n
  | .pushVector d s => m.two d s fun l l' => (l ++ l', none)
  | .fpushVector d s => m.two d s fun l l' => (l' ++ l, none)
  | .split d s size => m.two d s fun l l' => (l ++ l'.drop size, some (l'.take size))

/-- What a caller may ask for: vectors that are not consumed, two different ones, and at most
    the bytes that are there. -/
def VecOp.Legal (m : Lists) : VecOp → Prop
  | .push i _ | .fpush i _ => ∃ l, m i = some l
  | .pop i n | .fpop i n => ∃ l, m i = some l ∧ n ≤ l.length
  | .pushVector d s | .fpushVector d s | .split d s _ =>
      d ≠ s ∧ (∃ l, m d = some l) ∧ ∃ l, m s = some l

/-- The block that the operation moves is empty. -/
def VecOp.EmptyBlock (m : Lists) : VecOp → Prop
  | .push _ block | .fpush _ block => block = []
  | .pop _ n | .fpop _ n => n = 0
  | .pushVector _ s | .fpushVector _ s => m s = some []
  | .split .. => False

/-- A pop leaves a byte. -/
def VecOp.Leaves (m : Lists) : VecOp → Prop
  | .pop i n | .fpop i n => ∀ l, m i = some l → n ≠ 0 → n < l.length
  | _ => True

/-! ## Ownership -/

/-- The buffer is what the capacity promises: a live block of that size, or none. -/
structure Owned (v : CVec UInt8) : Prop where
  size : v.items.length ≤ v.capacity
  null : v.capacity = 0 → v.buf = .null
  live : v.capacity ≠ 0 → v.buf = .live

/-- Each vector has the bytes of its list and owns its buffer. -/
def Refines (v : Vectors) (m : Lists) : Prop :=
  ∀ i, Option.Rel (fun c l => c.items = l ∧ Owned c) (v i) (m i)

theorem le_growLoop {n cap needed : Nat} (hcap : 0 < cap) (h : needed ≤ cap + n) :
    needed ≤ growLoop n cap needed := by
  induction n generalizing cap with
  | zero => exact h
  | succ n ih =>
    unfold growLoop
    split
    · exact ih (by omega) (by omega)
    · omega

variable {v : CVec UInt8} {block : Bytes}

/-- Behind a `vector_resize` there is room for `needed` bytes. -/
theorem Owned.resize (h : Owned v) {needed : Nat} (hpos : 0 < needed) :
    ∃ cap, vectorResize v needed = .ok { v with buf := .live, capacity := cap } ∧ needed ≤ cap := by
  unfold vectorResize
  rw [if_neg (by omega)]
  by_cases hle : needed ≤ v.capacity
  · have hlive := h.live (by omega)
    refine ⟨v.capacity, ?_, hle⟩
    rw [if_pos hle, ← hlive]
  · have hfreed : v.buf ≠ .freed := by
      intro hfreed
      by_cases hcap : v.capacity = 0
      · exact absurd ((h.null hcap).symm.trans hfreed) (by decide)
      · exact absurd ((h.live hcap).symm.trans hfreed) (by decide)
    rw [if_neg hle, if_neg hfreed]
    refine ⟨_, rfl, le_growLoop ?_ (Nat.le_add_left _ _)⟩
    split
    · omega
    · decide

theorem owned_live {items : Bytes} {cap : Nat} (hcap : 0 < cap) (h : items.length ≤ cap) :
    Owned ⟨.live, items, cap⟩ where
  size := h
  null h0 := absurd h0 (Nat.ne_of_gt hcap)
  live _ := rfl

/-- Both pushes: the block goes to one of the ends. -/
theorem Owned.push (h : Owned v) (hne : block ≠ []) :
    (∃ c, vectorPush 1 v block = .ok c ∧ c.items = v.items ++ block ∧ Owned c) ∧
    (∃ c, vectorFpush 1 v block = .ok c ∧ c.items = block ++ v.items ∧ Owned c) := by
  have hpos : 0 < block.length := List.length_pos_iff.mpr hne
  obtain ⟨cap, hresize, hcap⟩ : ∃ cap, vectorResize v ((v.items.length + block.length) * 1) =
      .ok { v with buf := .live, capacity := cap } ∧ (v.items.length + block.length) * 1 ≤ cap :=
    h.resize (by omega)
  constructor
  · refine ⟨⟨.live, v.items ++ block, cap⟩, ?_, rfl, owned_live (by omega) ?_⟩
    · unfold vectorPush
      rw [if_neg hne, hresize]
      rfl
    · rw [List.length_append]
      omega
  · refine ⟨⟨.live, block ++ v.items, cap⟩, ?_, rfl, owned_live (by omega) ?_⟩
    · unfold vectorFpush
      rw [if_neg hne, hresize]
      rfl
    · rw [List.length_append]
      omega

/-- Both pops, when they leave a byte. -/
theorem Owned.pop (h : Owned v) {n : Nat} (hpos : n ≠ 0) (hn : n < v.items.length) :
    (∃ c, vectorPop v n = .ok c ∧ c.items = v.items.take (v.items.length - n) ∧ Owned c) ∧
    (∃ c, vectorFpop v n = .ok c ∧ c.items = v.items.drop n ∧ Owned c) := by
  have hpop : vectorPop v n = .ok { v with items := v.items.take (v.items.length - n) } := by
    unfold vectorPop
    rw [if_neg hpos, if_neg (by omega)]
  have hne : v.items.take (v.items.length - n) ≠ [] := by
    intro hnil
    have hlen := congrArg List.length hnil
    rw [List.length_take, List.length_nil] at hlen
    omega
  have hsize := h.size
  constructor
  · refine ⟨_, hpop, rfl, ?_, h.null, h.live⟩
    show (v.items.take _).length ≤ v.capacity
    rw [List.length_take]
    omega
  · refine ⟨{ v with items := v.items.drop n }, ?_, rfl, ?_, h.null, h.live⟩
    · unfold vectorFpop
      rw [hpop]
      exact if_neg hne
    · show (v.items.drop n).length ≤ v.capacity
      rw [List.length_drop]
      omega

/-- Both pops release the buffer when they take everything, and keep the capacity. -/
theorem Owned.pop_all (h : Owned v) {n : Nat} (hpos : n ≠ 0) (hn : n = v.items.length) :
    vectorPop v n = .ok { v with buf := .freed, items := [] } ∧
    vectorFpop v n = .ok { v with buf := .freed, items := [] } ∧
    ¬ Owned { v with buf := .freed, items := [] } := by
  have hsize := h.size
  have hcap : v.capacity ≠ 0 := by omega
  have hpop : vectorPop v n = .ok { v with buf := .freed, items := [] } := by
    unfold vectorPop
    rw [if_neg hpos, if_pos (by omega), h.live hcap]
  refine ⟨hpop, ?_, fun howned => Buf.noConfusion (howned.live hcap)⟩
  unfold vectorFpop
  rw [hpop]
  rfl

/-- `push_vector` and `fpush_vector` from a vector that is not empty. -/
theorem Owned.push_vector (h : Owned v) {src : CVec UInt8} (hsrc : Owned src) (hne : src.items ≠ []) :
    (∃ c, pushVector 1 v src = .ok c ∧ c.items = v.items ++ src.items ∧ Owned c) ∧
    (∃ c, fpushVector 1 v src = .ok c ∧ c.items = src.items ++ v.items ∧ Owned c) := by
  have hpos : 0 < src.items.length := List.length_pos_iff.mpr hne
  have hsize := hsrc.size
  have hlive := hsrc.live (by omega)
  unfold pushVector fpushVector
  rw [hlive]
  exact h.push hne

/-- An empty one is skipped when it never had a buffer; else the assertion fails. -/
theorem push_vector_empty (v : CVec UInt8) {src : CVec UInt8} (hsrc : Owned src)
    (hnil : src.items = []) :
    (pushVector 1 v src = .ok v ∨ pushVector 1 v src = .error vecAssert) ∧
    fpushVector 1 v src = .error vecAssert := by
  unfold pushVector fpushVector
  by_cases hcap : src.capacity = 0
  · rw [hsrc.null hcap]
    exact ⟨.inl rfl, rfl⟩
  · rw [hsrc.live hcap, hnil]
    exact ⟨.inr rfl, rfl⟩

/-- `split_vector` moves the bytes from `size` on. -/
theorem Owned.split (h : Owned v) {src : CVec UInt8} (hsrc : Owned src) (size : Nat) :
    ∃ c c', splitVector 1 v src size = .ok (c, c') ∧ c.items = v.items ++ src.items.drop size ∧
      Owned c ∧ c'.items = src.items.take size ∧ Owned c' := by
  unfold splitVector
  by_cases hle : src.items.length ≤ size
  · rw [if_pos hle]
    refine ⟨v, src, rfl, ?_, h, (List.take_of_length_le hle).symm, hsrc⟩
    rw [List.drop_eq_nil_of_le hle, List.append_nil]
  · have hne : src.items.drop size ≠ [] := by
      intro hnil
      exact hle (List.drop_eq_nil_iff.mp hnil)
    obtain ⟨c, hpush, hitems, howned⟩ := (h.push hne).1
    rw [if_neg hle, hpush]
    refine ⟨c, _, rfl, hitems, howned, rfl, ?_, hsrc.null, hsrc.live⟩
    show (src.items.take size).length ≤ src.capacity
    have hsize := hsrc.size
    rw [List.length_take]
    omega

/-! ## Steps -/

/-- The result of a call that ends well: it fails only on an empty block, by its assertion, and
    otherwise does what it does to lists. -/
def EndsWell (r : Except Stop Vectors) (m' : Lists) (emptyBlock : Prop) : Prop :=
  (∀ e, r = .error e → (∃ text, e = .assertion text) ∧ emptyBlock) ∧
  ∀ v', r = .ok v' → Refines v' m'

variable {vs : Vectors} {m : Lists} {emptyBlock : Prop}

theorem Refines.update (h : Refines vs m) (i : Nat) {c : Option (CVec UInt8)} {l : Option Bytes}
    (hrel : Option.Rel (fun c l => c.items = l ∧ Owned c) c l) :
    Refines (Function.update vs i c) (Function.update m i l) := by
  intro j
  by_cases hj : j = i
  · subst hj
    rw [Function.update_self, Function.update_self]
    exact hrel
  · rw [Function.update_of_ne hj, Function.update_of_ne hj]
    exact h j

theorem Refines.vector (h : Refines vs m) {i : Nat} {l : Bytes} (hl : m i = some l) :
    ∃ c, vs i = some c ∧ c.items = l ∧ Owned c := by
  have hi := h i
  rw [hl] at hi
  cases hc : vs i with
  | none =>
    rw [hc] at hi
    cases hi
  | some c =>
    rw [hc] at hi
    cases hi with
    | some hrel => exact ⟨c, rfl, hrel⟩

/-- An operation on one vector that keeps it owned. -/
theorem Refines.one (h : Refines vs m) {i : Nat} {l : Bytes} (hl : m i = some l)
    {f : CVec UInt8 → Except Stop (CVec UInt8)} {g : Bytes → Bytes}
    (hf : ∀ c, c.items = l → Owned c → ((∃ text, f c = .error (.assertion text)) ∧ emptyBlock) ∨
      ∃ c', f c = .ok c' ∧ c'.items = g l ∧ Owned c') :
    EndsWell (vs.one i f) (m.one i g) emptyBlock := by
  obtain ⟨c, hc, hitems, howned⟩ := h.vector hl
  unfold Vectors.one Lists.one
  rw [hc, hl]
  rcases hf c hitems howned with ⟨⟨text, herr⟩, hempty⟩ | ⟨c', hok, hitems', howned'⟩
  · dsimp only
    rw [herr]
    exact ⟨fun e he => ⟨⟨text, (Except.error.inj he).symm⟩, hempty⟩, nofun⟩
  · dsimp only
    rw [hok]
    refine ⟨nofun, fun v' hv' => ?_⟩
    obtain rfl := Except.ok.inj hv'
    exact h.update i (.some ⟨hitems', howned'⟩)

/-- An operation on two vectors that keeps both owned, or consumes the second. -/
theorem Refines.two (h : Refines vs m) {i j : Nat} {l l' : Bytes} (hl : m i = some l)
    (hl' : m j = some l')
    {f : CVec UInt8 → CVec UInt8 → Except Stop (CVec UInt8 × Option (CVec UInt8))}
    {g : Bytes → Bytes → Bytes × Option Bytes}
    (hf : ∀ c c', c.items = l → Owned c → c'.items = l' → Owned c' →
      ((∃ text, f c c' = .error (.assertion text)) ∧ emptyBlock) ∨
      ∃ r, f c c' = .ok r ∧ r.1.items = (g l l').1 ∧ Owned r.1 ∧
        Option.Rel (fun c l => c.items = l ∧ Owned c) r.2 (g l l').2) :
    EndsWell (vs.two i j f) (m.two i j g) emptyBlock := by
  obtain ⟨c, hc, hitems, howned⟩ := h.vector hl
  obtain ⟨c', hc', hitems', howned'⟩ := h.vector hl'
  unfold Vectors.two Lists.two
  rw [hc, hl, hc', hl']
  rcases hf c c' hitems howned hitems' howned' with ⟨⟨text, herr⟩, hempty⟩ | ⟨r, hok, h1, h2, h3⟩
  · dsimp only
    rw [herr]
    exact ⟨fun e he => ⟨⟨text, (Except.error.inj he).symm⟩, hempty⟩, nofun⟩
  · dsimp only
    rw [hok]
    refine ⟨nofun, fun v' hv' => ?_⟩
    obtain rfl := Except.ok.inj hv'
    exact (h.update i (.some ⟨h1, h2⟩)).update j h3

/-- A call that leaves a byte ends well. -/
theorem Refines.step (h : Refines vs m) {op : VecOp} (hlegal : op.Legal m) (hleaves : op.Leaves m) :
    EndsWell (op.step vs) (op.listStep m) (op.EmptyBlock m) := by
  cases op with
  | push i block =>
    obtain ⟨l, hl⟩ := hlegal
    refine h.one hl fun c hitems howned => ?_
    by_cases hne : block = []
    · exact .inl ⟨⟨_, by rw [hne]; rfl⟩, hne⟩
    · exact .inr (by rw [← hitems]; exact (howned.push hne).1)
  | fpush i block =>
    obtain ⟨l, hl⟩ := hlegal
    refine h.one hl fun c hitems howned => ?_
    by_cases hne : block = []
    · exact .inl ⟨⟨_, by rw [hne]; rfl⟩, hne⟩
    · exact .inr (by rw [← hitems]; exact (howned.push hne).2)
  | pop i n =>
    obtain ⟨l, hl, -⟩ := hlegal
    refine h.one hl fun c hitems howned => ?_
    by_cases hn : n = 0
    · exact .inl ⟨⟨_, by rw [hn]; rfl⟩, hn⟩
    · exact .inr (by rw [← hitems]; exact (howned.pop hn (by rw [hitems]; exact hleaves l hl hn)).1)
  | fpop i n =>
    obtain ⟨l, hl, -⟩ := hlegal
    refine h.one hl fun c hitems howned => ?_
    by_cases hn : n = 0
    · exact .inl ⟨⟨_, by rw [hn]; rfl⟩, hn⟩
    · exact .inr (by rw [← hitems]; exact (howned.pop hn (by rw [hitems]; exact hleaves l hl hn)).2)
  | pushVector d s =>
    obtain ⟨-, ⟨l, hl⟩, l', hl'⟩ := hlegal
    refine h.two hl hl' fun c c' hitems howned hitems' howned' => ?_
    subst hitems hitems'
    by_cases hne : c'.items = []
    · rcases (push_vector_empty c howned' hne).1 with hok | herr
      · exact .inr ⟨(c, none), by rw [hok]; rfl, by rw [hne]; exact (List.append_nil _).symm, howned, .none⟩
      · exact .inl ⟨⟨_, by rw [herr]; rfl⟩, hl'.trans (congrArg some hne)⟩
    · obtain ⟨r, hok, hr, hrowned⟩ := (howned.push_vector howned' hne).1
      exact .inr ⟨(r, none), by rw [hok]; rfl, hr, hrowned, .none⟩
  | fpushVector d s =>
    obtain ⟨-, ⟨l, hl⟩, l', hl'⟩ := hlegal
    refine h.two hl hl' fun c c' hitems howned hitems' howned' => ?_
    subst hitems hitems'
    by_cases hne : c'.items = []
    · exact .inl ⟨⟨_, by rw [(push_vector_empty c howned' hne).2]; rfl⟩,
        hl'.trans (congrArg some hne)⟩
    · obtain ⟨r, hok, hr, hrowned⟩ := (howned.push_vector howned' hne).2
      exact .inr ⟨(r, none), by rw [hok]; rfl, hr, hrowned, .none⟩
  | split d s size =>
    obtain ⟨-, ⟨l, hl⟩, l', hl'⟩ := hlegal
    refine h.two hl hl' fun c c' hitems howned hitems' howned' => ?_
    subst hitems hitems'
    obtain ⟨r, r', hok, hr, hrowned, hr', hrowned'⟩ := howned.split howned' size
    exact .inr ⟨(r, some r'), by rw [hok]; rfl, hr, hrowned, .some ⟨hr', hrowned'⟩⟩

/-- A pop that leaves nothing returns without the buffer. -/
theorem Refines.step_breaks (h : Refines vs m) {op : VecOp} (hlegal : op.Legal m)
    (hleaves : ¬ op.Leaves m) : ∃ v', op.step vs = .ok v' ∧ ¬ Refines v' (op.listStep m) := by
  have hbreaks : ∀ {i n : Nat} {l : Bytes} {f : CVec UInt8 → Except Stop (CVec UInt8)}
      {m' : Lists}, m i = some l → n ≤ l.length →
      ¬ (∀ l, m i = some l → n ≠ 0 → n < l.length) →
      (∀ c : CVec UInt8, Owned c → n ≠ 0 → n = c.items.length →
        f c = .ok { c with buf := .freed, items := [] } ∧
          ¬ Owned { c with buf := .freed, items := [] }) →
      ∃ v', vs.one i f = .ok v' ∧ ¬ Refines v' m' := by
    intro i n l f m' hl hn hnot hf
    obtain ⟨c, hc, hitems, howned⟩ := h.vector hl
    have hpos : n ≠ 0 := fun h0 => hnot fun _ _ hpos => absurd h0 hpos
    have hle : ¬ n < l.length := by
      intro hlt
      refine hnot fun l' hl' _ => ?_
      rw [← Option.some.inj (hl.symm.trans hl')]
      exact hlt
    obtain ⟨hok, hfreed⟩ := hf c howned hpos (by rw [hitems]; omega)
    refine ⟨Function.update vs i (some { c with buf := .freed, items := [] }), ?_, fun hrefines => ?_⟩
    · unfold Vectors.one
      rw [hc]
      dsimp only
      rw [hok]
      rfl
    · have hi := hrefines i
      rw [Function.update_self] at hi
      cases hm : m' i with
      | none =>
        rw [hm] at hi
        cases hi
      | some l'' =>
        rw [hm] at hi
        cases hi with
        | some hrel => exact hfreed hrel.2
  cases op with
  | pop i n =>
    obtain ⟨l, hl, hn⟩ := hlegal
    exact hbreaks hl hn hleaves fun c howned hpos hall =>
      ⟨(howned.pop_all hpos hall).1, (howned.pop_all hpos hall).2.2⟩
  | fpop i n =>
    obtain ⟨l, hl, hn⟩ := hlegal
    exact hbreaks hl hn hleaves fun c howned hpos hall => (howned.pop_all hpos hall).2
  | push i block => exact absurd trivial hleaves
  | fpush i block => exact absurd trivial hleaves
  | pushVector d s => exact absurd trivial hleaves
  | fpushVector d s => exact absurd trivial hleaves
  | split d s size => exact absurd trivial hleaves

/-! ## Runs -/

/-- `P` holds of each call of a run, as far as the run gets. -/
def Along (P : Lists → VecOp → Prop) : List VecOp → Vectors → Lists → Prop
  | [], _, _ => True
  | op :: ops, v, m => P m op ∧ ∀ v', op.step v = .ok v' → Along P ops v' (op.listStep m)

/-- Each call of a run ends well: the run implements the list model. -/
def Implements : List VecOp → Vectors → Lists → Prop
  | [], _, _ => True
  | op :: ops, v, m => EndsWell (op.step v) (op.listStep m) (op.EmptyBlock m) ∧
      ∀ v', op.step v = .ok v' → Implements ops v' (op.listStep m)

/-- All vectors, zeroed. -/
def zeroed : Vectors := fun _ => some {}

/-- The empty lists. -/
def empties : Lists := fun _ => some []

theorem refines_zeroed : Refines zeroed empties :=
  fun _ => .some ⟨rfl, ⟨Nat.le_refl 0, fun _ => rfl, fun h => absurd rfl h⟩⟩

theorem Refines.implements_iff (h : Refines vs m) {ops : List VecOp}
    (hlegal : Along (fun m op => op.Legal m) ops vs m) :
    Implements ops vs m ↔ Along (fun m op => op.Leaves m) ops vs m := by
  induction ops generalizing vs m with
  | nil => exact Iff.rfl
  | cons op ops ih =>
    obtain ⟨hop, hops⟩ := hlegal
    constructor
    · rintro ⟨hends, hrest⟩
      refine ⟨by_contra fun hleaves => ?_, fun v' hv' => ?_⟩
      · obtain ⟨v', hv', hnot⟩ := h.step_breaks hop hleaves
        exact hnot (hends.2 v' hv')
      · exact (ih (hends.2 v' hv') (hops v' hv')).mp (hrest v' hv')
    · rintro ⟨hleaves, hrest⟩
      have hends := h.step hop hleaves
      exact ⟨hends, fun v' hv' => (ih (hends.2 v' hv') (hops v' hv')).mpr (hrest v' hv')⟩

/-- A run of calls on zeroed vectors implements the list model when each pop leaves a byte, and
    only then. -/
theorem vectors_implement_iff (ops : List VecOp)
    (hlegal : Along (fun m op => op.Legal m) ops zeroed empties) :
    Implements ops zeroed empties ↔ Along (fun m op => op.Leaves m) ops zeroed empties :=
  refines_zeroed.implements_iff hlegal

/-- Two pushes and a pop of the first byte. -/
theorem vectors_implement_pushed :
    Implements [.push 0 [1, 2], .fpush 0 [3], .fpop 0 1] zeroed empties ↔
      Along (fun m op => op.Leaves m) [.push 0 [1, 2], .fpush 0 [3], .fpop 0 1] zeroed empties :=
  vectors_implement_iff _ ⟨⟨_, rfl⟩, fun _ _ => ⟨⟨_, rfl⟩, fun _ _ =>
    ⟨⟨_, rfl, by decide⟩, fun _ _ => trivial⟩⟩⟩

/-- A byte is pushed and popped, and the next push writes to the buffer that the pop released. -/
theorem vectors_not_implement :
    Along (fun m op => op.Legal m) [.push 0 [1], .pop 0 1, .push 0 [2]] zeroed empties ∧
    ¬ Implements [.push 0 [1], .pop 0 1, .push 0 [2]] zeroed empties ∧
    ∃ v v', (VecOp.push 0 [1]).step zeroed = .ok v ∧ (VecOp.pop 0 1).step v = .ok v' ∧
      (VecOp.push 0 [2]).step v' = .error (.fault "use of a released block") := by
  refine ⟨⟨⟨_, rfl⟩, fun _ _ => ⟨⟨_, rfl, by decide⟩, fun _ _ => ⟨⟨_, rfl⟩, fun _ _ => trivial⟩⟩⟩, ?_,
    ⟨_, _, rfl, rfl, rfl⟩⟩
  rintro ⟨-, hrest⟩
  obtain ⟨-, hrest⟩ := hrest _ rfl
  obtain ⟨⟨herror, -⟩, -⟩ := hrest _ rfl
  obtain ⟨-, hempty⟩ := herror _ rfl
  cases hempty

end Cup
