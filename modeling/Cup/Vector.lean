/-
  The dynamic vectors of `utils.c`.

  `CVec` is `CVector` with its bytes seen as items of `w` bytes each; the operations take
  `w` and blocks of whole items. `buf` says what the `data` pointer is worth: NULL, a live
  block of `capacity` bytes, or a block that was released. Every operation of the source is
  one definition here; the failed assertions and the uses of a released block are results.
-/
import Cup.Lib.Run

namespace Cup

open Lib (Stop)

/-- What the `data` pointer of a vector points to. -/
inductive Buf where
  | null
  | live
  | freed
  deriving DecidableEq, Repr

/-- `struct CVector`: `items` are the first `size` bytes, `capacity` is in bytes. -/
structure CVec (α : Type) where
  buf : Buf := .null
  items : List α := []
  capacity : Nat := 0
  deriving DecidableEq, Repr

/-- `INITIAL_CAPACITY`. -/
def initialCapacity : Nat := 64

/-- `while (cap < needed) cap *= 2`, at most `n` times. -/
def growLoop : Nat → Nat → Nat → Nat
  | 0, cap, _ => cap
  | n + 1, cap, needed => if cap < needed then growLoop n (cap * 2) needed else cap

variable {α : Type}

/-- `vector_resize`. -/
def vectorResize (v : CVec α) (needed : Nat) : Except Stop (CVec α) :=
  if needed = 0 then .ok v
  else if needed ≤ v.capacity then .ok v
  else if v.buf = .freed then .error (.fault "realloc of a released block")
  else
    let cap := if v.capacity ≠ 0 then v.capacity else initialCapacity
    .ok { v with buf := .live, capacity := growLoop needed cap needed }

/-- `vector_pop` of the last `n` items. -/
def vectorPop (v : CVec α) (n : Nat) : Except Stop (CVec α) :=
  if n = 0 then .error (.assertion "vec && sizeT > 0")
  else if v.items.length ≤ n then
    match v.buf with
    | .freed => .error (.fault "double free")
    | .live => .ok { v with buf := .freed, items := [] }
    | .null => .ok { v with items := [] }
  else .ok { v with items := v.items.take (v.items.length - n) }

/-- `vector_fpop` of the first `n` items. -/
def vectorFpop (v : CVec α) (n : Nat) : Except Stop (CVec α) := do
  let v' ← vectorPop v n
  -- `memmove` of `size` bytes from `data + sizeT`; of no bytes when the pop emptied the vector
  if v'.items = [] then .ok v' else .ok { v' with items := v.items.drop n }

/-- The failed assertion of `vector_push` and `vector_fpush`. -/
def vecAssert : Stop := .assertion "vec && sizeT > 0 && data"

/-- `vector_push` of a block of items of `w` bytes. -/
def vectorPush (w : Nat) (v : CVec α) (block : List α) : Except Stop (CVec α) := do
  if block = [] then .error vecAssert
  else
    let v ← vectorResize v ((v.items.length + block.length) * w)
    if v.buf = .live then .ok { v with items := v.items ++ block }
    else .error (.fault "use of a released block")

/-- `vector_fpush`: the block goes in front. -/
def vectorFpush (w : Nat) (v : CVec α) (block : List α) : Except Stop (CVec α) := do
  if block = [] then .error vecAssert
  else
    let v ← vectorResize v ((v.items.length + block.length) * w)
    if v.buf = .live then .ok { v with items := block ++ v.items }
    else .error (.fault "use of a released block")

/-- `push_vector`, which consumes `src`. -/
def pushVector (w : Nat) (dest src : CVec α) : Except Stop (CVec α) := do
  match src.buf with
  | .null => .ok dest
  | .live => vectorPush w dest src.items
  | .freed =>
    let _ ← vectorPush w dest src.items
    .error (.fault "use of a released block")

/-- `fpush_vector`, which consumes `src`. -/
def fpushVector (w : Nat) (dest src : CVec α) : Except Stop (CVec α) := do
  match src.buf with
  | .null => .error vecAssert
  | .live => vectorFpush w dest src.items
  | .freed =>
    let _ ← vectorFpush w dest src.items
    .error (.fault "use of a released block")

/-- `split_vector`: the items of `src` from `size` on are appended to `dest`. -/
def splitVector (w : Nat) (dest src : CVec α) (size : Nat) : Except Stop (CVec α × CVec α) := do
  if src.items.length ≤ size then .ok (dest, src)
  else
    let dest ← vectorPush w dest (src.items.drop size)
    .ok (dest, { src with items := src.items.take size })

/-- `vec.data[i]`. -/
def CVec.at (v : CVec α) (i : Nat) : Except Stop α :=
  match v.buf, v.items[i]? with
  | .live, some a => .ok a
  | .null, _ => .error (.fault "NULL dereference")
  | _, _ => .error (.fault "read outside the block")

theorem CVec.at_ok {v : CVec α} {i : Nat} {a : α} (h : v.at i = .ok a) : v.items[i]? = some a := by
  unfold CVec.at at h
  split at h
  · rename_i hi
    cases h
    exact hi
  · cases h
  · cases h

/-! ## Growth -/

theorem vectorResize_of_le {v : CVec α} {needed : Nat} (h : needed ≤ v.capacity) :
    vectorResize v needed = .ok v := by
  unfold vectorResize
  rw [if_pos h, ite_self]

/-- One doubling is enough for at most twice the bytes. -/
theorem vectorResize_double {v : CVec α} {needed : Nat} (hb : v.buf ≠ .freed)
    (h : v.capacity < needed) (h2 : needed ≤ 2 * v.capacity) :
    vectorResize v needed = .ok { v with buf := .live, capacity := 2 * v.capacity } := by
  obtain ⟨n, rfl⟩ : ∃ n, needed = n + 1 := ⟨needed - 1, by omega⟩
  have hgrow : growLoop (n + 1) v.capacity (n + 1) = 2 * v.capacity := by
    rw [growLoop, if_pos h, Nat.mul_comm]
    cases n with
    | zero => rfl
    | succ n => rw [growLoop, if_neg (by omega)]
  unfold vectorResize
  rw [if_neg (by omega), if_neg (by omega), if_neg hb]
  dsimp only
  rw [if_pos (by omega), hgrow]

theorem vectorPush_of_resize {w : Nat} {v v' : CVec α} {block : List α} (hne : block ≠ [])
    (h : vectorResize v ((v.items.length + block.length) * w) = .ok v') (hb : v'.buf = .live) :
    vectorPush w v block = .ok { v' with items := v'.items ++ block } := by
  unfold vectorPush
  rw [if_neg hne, h]
  exact if_pos hb

end Cup
