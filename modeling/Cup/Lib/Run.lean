/-
  Runs of stateful code that may end early: a state monad whose results are a returned
  value or the way the run stopped (an `exit`, a failed assertion, undefined behaviour, or
  the end of the fuel of the model), with the state kept in either case.

  `Sat x s Q E`: the run of `x` from `s` ends in `Q` when it returns and in `E` when it stops.
  The rules `sat_pure`, `sat_bind`, `sat_stop`, … compute `Sat` along the code of `x`;
  `sat_iff_ok` turns it back into a statement about the result.
-/
import Mathlib.Algebra.Ring.Rat
import Mathlib.Tactic.Common

namespace Lib

/-- The ways a run can end without returning. -/
inductive Stop where
  | exit (code : Nat)
  | assertion (text : String)
  | fault (text : String)
  | fuel
  deriving DecidableEq, Repr

/-- The result of a run: a value, or the reason it stopped, and the last state. -/
inductive Res (σ α : Type) where
  | ok (a : α) (s : σ)
  | stop (e : Stop) (s : σ)
  deriving DecidableEq, Repr

/-- The state a run ends in. -/
def Res.state {σ α : Type} : Res σ α → σ
  | .ok _ s => s
  | .stop _ s => s

@[simp] theorem Res.state_ok {σ α : Type} (a : α) (s : σ) : (Res.ok a s).state = s := rfl

@[simp] theorem Res.state_stop {σ α : Type} (e : Stop) (s : σ) :
    (Res.stop e s : Res σ α).state = s := rfl

/-- Code over a state `σ` that returns an `α` or stops. -/
def Run (σ α : Type) : Type := σ → Res σ α

namespace Run

variable {σ α β : Type}

protected def pure (a : α) : Run σ α := fun s => .ok a s

protected def bind (x : Run σ α) (f : α → Run σ β) : Run σ β := fun s =>
  match x s with
  | .ok a s' => f a s'
  | .stop e s' => .stop e s'

instance : Monad (Run σ) where
  pure := Run.pure
  bind := Run.bind

/-- The current state. -/
def get : Run σ σ := fun s => .ok s s

/-- Replace the state. -/
def set (s : σ) : Run σ Unit := fun _ => .ok () s

/-- Apply `f` to the state. -/
def modify (f : σ → σ) : Run σ Unit := fun s => .ok () (f s)

/-- A value read from the state. -/
def gets (f : σ → α) : Run σ α := fun s => .ok (f s) s

/-- End the run here. -/
def stop (e : Stop) : Run σ α := fun s => .stop e s

/-- A computation without state. -/
def lift (x : Except Stop α) : Run σ α := fun s =>
  match x with
  | .ok a => .ok a s
  | .error e => .stop e s

/-! ## Evaluation -/

@[simp] theorem pure_apply (a : α) (s : σ) : (pure a : Run σ α) s = .ok a s := rfl

@[simp] theorem get_apply (s : σ) : (get : Run σ σ) s = .ok s s := rfl

@[simp] theorem set_apply (s t : σ) : set s t = .ok () s := rfl

@[simp] theorem modify_apply (f : σ → σ) (s : σ) : modify f s = .ok () (f s) := rfl

@[simp] theorem gets_apply (f : σ → α) (s : σ) : gets f s = .ok (f s) s := rfl

@[simp] theorem stop_apply (e : Stop) (s : σ) : (stop e : Run σ α) s = .stop e s := rfl

@[simp] theorem lift_ok (a : α) (s : σ) : (lift (.ok a) : Run σ α) s = .ok a s := rfl

@[simp] theorem lift_error (e : Stop) (s : σ) :
    (lift (.error e) : Run σ α) s = .stop e s := rfl

theorem bind_apply (x : Run σ α) (f : α → Run σ β) (s : σ) :
    (x >>= f) s = match x s with
      | .ok a s' => f a s'
      | .stop e s' => .stop e s' := rfl

theorem bind_of_ok {x : Run σ α} {f : α → Run σ β} {s s' : σ} {a : α} (h : x s = .ok a s') :
    (x >>= f) s = f a s' := by
  rw [bind_apply, h]

theorem bind_of_stop {x : Run σ α} {f : α → Run σ β} {s s' : σ} {e : Stop}
    (h : x s = .stop e s') : (x >>= f) s = .stop e s' := by
  rw [bind_apply, h]

theorem bind_assoc {γ : Type} (x : Run σ α) (f : α → Run σ β) (g : β → Run σ γ) :
    x >>= f >>= g = x >>= fun a => f a >>= g := by
  funext s
  rw [bind_apply, bind_apply, bind_apply]
  cases x s <;> rfl

theorem bind_pure (x : Run σ α) : x >>= pure = x := by
  funext s
  rw [bind_apply]
  cases x s <;> rfl

theorem pure_bind' (a : α) (f : α → Run σ β) : (pure a : Run σ α) >>= f = f a := rfl

@[simp] theorem pure_bind (a : α) (f : α → Run σ β) (s : σ) :
    ((pure a : Run σ α) >>= f) s = f a s := rfl

@[simp] theorem get_bind (f : σ → Run σ β) (s : σ) : (get >>= f) s = f s s := rfl

@[simp] theorem set_bind (t : σ) (f : Unit → Run σ β) (s : σ) :
    (set t >>= f) s = f () t := rfl

@[simp] theorem modify_bind (g : σ → σ) (f : Unit → Run σ β) (s : σ) :
    (modify g >>= f) s = f () (g s) := rfl

@[simp] theorem gets_bind (g : σ → α) (f : α → Run σ β) (s : σ) :
    (gets g >>= f) s = f (g s) s := rfl

@[simp] theorem stop_bind (e : Stop) (f : α → Run σ β) (s : σ) :
    ((stop e : Run σ α) >>= f) s = .stop e s := rfl

@[simp] theorem lift_ok_bind (a : α) (f : α → Run σ β) (s : σ) :
    ((lift (.ok a) : Run σ α) >>= f) s = f a s := rfl

@[simp] theorem lift_error_bind (e : Stop) (f : α → Run σ β) (s : σ) :
    ((lift (.error e) : Run σ α) >>= f) s = .stop e s := rfl

/-- A sequence returns exactly when both parts do. -/
theorem bind_eq_ok {x : Run σ α} {f : α → Run σ β} {s s'' : σ} {b : β} :
    (x >>= f) s = .ok b s'' ↔ ∃ a s', x s = .ok a s' ∧ f a s' = .ok b s'' := by
  rw [bind_apply]
  cases x s with
  | ok a s' => simp
  | stop e s' => simp

theorem lift_eq_ok {x : Except Stop α} {s s' : σ} {a : α} :
    (lift x : Run σ α) s = .ok a s' ↔ x = .ok a ∧ s = s' := by
  cases x with
  | ok b => simp
  | error e => simp

/-! ## Pre- and postconditions -/

/-- From `s`, `x` returns into `Q` or stops into `E`. -/
def Sat (x : Run σ α) (s : σ) (Q : α → σ → Prop) (E : Stop → σ → Prop) : Prop :=
  match x s with
  | .ok a s' => Q a s'
  | .stop e s' => E e s'

variable {Q Q' : α → σ → Prop} {E E' : Stop → σ → Prop} {R : β → σ → Prop} {s : σ}

theorem sat_of_ok {x : Run σ α} {a : α} {s' : σ} (h : x s = .ok a s') :
    x.Sat s Q E ↔ Q a s' := by
  rw [Sat, h]

theorem sat_of_stop {x : Run σ α} {e : Stop} {s' : σ} (h : x s = .stop e s') :
    x.Sat s Q E ↔ E e s' := by
  rw [Sat, h]

/-- A property of every returned result, with nothing said about a stop. -/
theorem sat_iff_ok {x : Run σ α} :
    x.Sat s Q (fun _ _ => True) ↔ ∀ a s', x s = .ok a s' → Q a s' := by
  rw [Sat]
  cases x s with
  | ok a s' => simp
  | stop e s' => simp

/-- What is so of every outcome. -/
theorem sat_of_forall {x : Run σ α} (hq : ∀ a s', Q a s') (he : ∀ e s', E e s') : x.Sat s Q E := by
  unfold Sat
  cases x s with
  | ok a s' => exact hq a s'
  | stop e s' => exact he e s'

theorem sat_mono {x : Run σ α} (h : x.Sat s Q E) (hq : ∀ a s', Q a s' → Q' a s')
    (he : ∀ e s', E e s' → E' e s') : x.Sat s Q' E' := by
  unfold Sat at h ⊢
  cases hx : x s with
  | ok a s' => rw [hx] at h; exact hq a s' h
  | stop e s' => rw [hx] at h; exact he e s' h

theorem sat_bind {x : Run σ α} {f : α → Run σ β} :
    (x >>= f).Sat s R E ↔ x.Sat s (fun a s' => (f a).Sat s' R E) E := by
  unfold Sat
  rw [bind_apply]
  cases x s <;> rfl

@[simp] theorem sat_pure {a : α} : (pure a : Run σ α).Sat s Q E ↔ Q a s := Iff.rfl

@[simp] theorem sat_get {Q : σ → σ → Prop} : (get : Run σ σ).Sat s Q E ↔ Q s s := Iff.rfl

@[simp] theorem sat_set {t : σ} {Q : Unit → σ → Prop} : (set t).Sat s Q E ↔ Q () t := Iff.rfl

@[simp] theorem sat_modify {f : σ → σ} {Q : Unit → σ → Prop} :
    (modify f).Sat s Q E ↔ Q () (f s) := Iff.rfl

@[simp] theorem sat_gets {f : σ → α} : (gets f).Sat s Q E ↔ Q (f s) s := Iff.rfl

@[simp] theorem sat_stop {e : Stop} : (stop e : Run σ α).Sat s Q E ↔ E e s := Iff.rfl

theorem sat_lift {x : Except Stop α} :
    (lift x : Run σ α).Sat s Q E ↔ match x with | .ok a => Q a s | .error e => E e s := by
  cases x <;> exact Iff.rfl

/-! ## Frames -/

/-- `x` leaves the view `f` of the state as it was, and stops for reasons in `P` only. -/
def Keeps {γ : Type} (f : σ → γ) (P : Stop → Prop) (x : Run σ α) : Prop :=
  ∀ s, x.Sat s (fun _ s' => f s' = f s) (fun e s' => f s' = f s ∧ P e)

section Keeps

variable {γ : Type} {f : σ → γ} {P : Stop → Prop}

theorem Keeps.of_ok {x : Run σ α} (h : x.Keeps f P) {s s' : σ} {a : α} (hs : x s = .ok a s') :
    f s' = f s :=
  (sat_of_ok hs).mp (h s)

theorem keeps_pure (a : α) : (pure a : Run σ α).Keeps f P := fun _ => rfl

theorem keeps_get : (get : Run σ σ).Keeps f P := fun _ => rfl

theorem keeps_gets (g : σ → α) : (gets g : Run σ α).Keeps f P := fun _ => rfl

theorem keeps_stop {e : Stop} (h : P e) : (stop e : Run σ α).Keeps f P := fun _ => ⟨rfl, h⟩

theorem keeps_lift {x : Except Stop α} (h : ∀ e, x = .error e → P e) :
    (lift x : Run σ α).Keeps f P := by
  intro s
  rw [sat_lift]
  cases x with
  | ok a => exact rfl
  | error e => exact ⟨rfl, h e rfl⟩

theorem keeps_modify {g : σ → σ} (h : ∀ s, f (g s) = f s) : (modify g).Keeps f P := h

theorem keeps_bind {x : Run σ α} {g : α → Run σ β} (hx : x.Keeps f P)
    (hg : ∀ a, (g a).Keeps f P) : (x >>= g).Keeps f P := by
  intro s
  rw [sat_bind]
  refine sat_mono (hx s) (fun a s' h => ?_) fun _ _ h => h
  exact sat_mono (hg a s') (fun _ _ h' => h'.trans h) fun _ _ h' => ⟨h'.1.trans h, h'.2⟩

/-- What depends on the view only is kept too. -/
theorem Keeps.map {δ : Type} {x : Run σ α} (h : x.Keeps f P) (g : γ → δ) :
    x.Keeps (fun s => g (f s)) P := by
  intro s
  exact sat_mono (h s) (fun _ _ e => congrArg g e) fun _ _ e => ⟨congrArg g e.1, e.2⟩

end Keeps

/-! ## Runs inside a preorder -/

/-- Every run of `x` that returns goes along `R`. -/
def Along (R : σ → σ → Prop) (x : Run σ α) : Prop :=
  ∀ s, x.Sat s (fun _ s' => R s s') fun _ _ => True

section Along

variable {R : σ → σ → Prop}

theorem Along.of_ok {x : Run σ α} (h : Along R x) {s s' : σ} {a : α} (hs : x s = .ok a s') :
    R s s' :=
  (sat_of_ok hs).mp (h s)

theorem along_stop (e : Stop) : Along R (stop e : Run σ α) := fun _ => trivial

theorem along_pure (hr : ∀ s, R s s) (a : α) : Along R (pure a : Run σ α) := hr

theorem along_get (hr : ∀ s, R s s) : Along R (get : Run σ σ) := hr

theorem along_lift (hr : ∀ s, R s s) (x : Except Stop α) : Along R (lift x : Run σ α) := by
  intro s
  rw [sat_lift]
  cases x with
  | ok a => exact hr s
  | error e => trivial

theorem along_bind (ht : ∀ s t u, R s t → R t u → R s u) {x : Run σ α} {f : α → Run σ β}
    (hx : Along R x) (hf : ∀ a, Along R (f a)) : Along R (x >>= f) := by
  intro s
  rw [sat_bind]
  refine sat_mono (hx s) (fun a s' h => ?_) fun _ _ h => h
  exact sat_mono (hf a s') (fun _ _ h' => ht _ _ _ h h') fun _ _ h' => h'

end Along

end Run

end Lib
