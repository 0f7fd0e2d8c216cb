/-
  Memory with a stack in it. A machine and a reference that has no stack agree outside of the
  bytes of the stack (`Agree`), and code that finds its own words again keeps those at or above
  where it started (`Keeps`).
-/
import Cup.Lib.X64

namespace Lib.X64

/-- The bytes from `lo` on, `size` of them. -/
structure Stack where
  lo : Word
  size : Nat
  fits : size ≤ 2 ^ 64

namespace Stack

variable (S : Stack)

/-- A byte of the stack. -/
def Has (a : Word) : Prop := dist S.lo a < S.size

instance (a : Word) : Decidable (S.Has a) := inferInstanceAs (Decidable (_ < _))

/-- None of the eight bytes at `a` is in the stack. -/
def Misses (a : Word) : Prop := ∀ i < 8, ¬ S.Has (a + BitVec.ofNat 64 i)

instance (a : Word) : Decidable (S.Misses a) :=
  inferInstanceAs (Decidable (∀ i < 8, ¬ S.Has (a + BitVec.ofNat 64 i)))

/-- The memories are the same outside of the stack. -/
def Agree (m m' : Mem) : Prop := ∀ a, ¬ S.Has a → m a = m' a

/-- The bytes of the stack from `k` on are the same. -/
def Keeps (k : Nat) (m m' : Mem) : Prop := ∀ a, S.Has a → k ≤ dist S.lo a → m' a = m a

/-- The stack pointer with `k` free bytes. -/
def top (k : Nat) : Word := S.lo + BitVec.ofNat 64 k

variable {S} {m m' m'' : Mem} {a v : Word} {k : Nat}

theorem Agree.trans (h : S.Agree m m') (h' : S.Agree m' m'') : S.Agree m m'' :=
  fun a ha => (h a ha).trans (h' a ha)

theorem Keeps.refl : S.Keeps k m m := fun _ _ _ => rfl

theorem Keeps.trans (h : S.Keeps k m m') (h' : S.Keeps k m' m'') : S.Keeps k m m'' :=
  fun a ha hk => (h' a ha hk).trans (h a ha hk)

theorem Keeps.mono {j : Nat} (h : S.Keeps k m m') (hkj : k ≤ j) : S.Keeps j m m' :=
  fun a ha hj => h a ha (hkj.trans hj)

/-- The byte at a distance below 8 is one of the eight. -/
theorem eq_add_dist (a x : Word) : x = a + BitVec.ofNat 64 (dist a x) := by
  rw [dist, BitVec.ofNat_toNat, BitVec.setWidth_eq, BitVec.add_comm, BitVec.sub_add_cancel]

theorem Misses.far (h : S.Misses a) {x : Word} (hx : S.Has x) : 8 ≤ dist a x := by
  refine Nat.le_of_not_lt fun hlt => h _ hlt ?_
  rw [← eq_add_dist]
  exact hx

/-- What is outside of the stack is read the same. -/
theorem Agree.load (h : S.Agree m m') (ha : S.Misses a) : m.load a = m'.load a :=
  Mem.load_congr fun x hx => h x fun hhas => Nat.not_lt_of_le (ha.far hhas) hx

/-- A word is written to both. -/
theorem Agree.store (h : S.Agree m m') : S.Agree (m.store a v) (m'.store a v) := by
  intro x hx
  unfold Mem.store
  split
  · rfl
  · exact h x hx

theorem Misses.keeps (h : S.Misses a) : S.Keeps k m (m.store a v) :=
  fun _ hx _ => Mem.store_of_far (h.far hx)

/-- The distance of the bytes of a word that is `k` bytes above the start of the stack. -/
theorem dist_top {x : Word} {j : Nat} (hk : k + 8 ≤ S.size) (hj : dist (S.top k) x = j)
    (hlt : j < 8) : dist S.lo x = k + j := by
  have hx : x = S.lo + BitVec.ofNat 64 (k + j) := by
    rw [eq_add_dist (S.top k) x, hj, top, BitVec.add_assoc, ← BitVec.ofNat_add]
  have hfits := S.fits
  rw [hx, Mem.dist_add (by omega)]

/-- A push writes below the words that are on the stack. -/
theorem store_top (hk : k + 8 ≤ S.size) :
    S.Agree (m.store (S.top k) v) m ∧ S.Keeps (k + 8) m (m.store (S.top k) v) := by
  constructor
  · intro x hx
    refine Mem.store_of_far (Nat.le_of_not_lt fun hlt => hx ?_)
    have hdist := dist_top hk rfl hlt
    unfold Has
    omega
  · intro x _ hfar
    refine Mem.store_of_far (Nat.le_of_not_lt fun hlt => ?_)
    have hdist := dist_top hk rfl hlt
    omega

/-- A word that was kept is read again. -/
theorem Keeps.load (h : S.Keeps k m m') (hk : k + 8 ≤ S.size) :
    m'.load (S.top k) = m.load (S.top k) := by
  refine Mem.load_congr fun x hx => ?_
  have hdist := dist_top hk rfl hx
  refine h x ?_ ?_
  · unfold Has
    omega
  · omega

theorem top_sub (h : 8 ≤ k) : S.top k - 8 = S.top (k - 8) := by
  obtain ⟨j, rfl⟩ : ∃ j, k = j + 8 := ⟨k - 8, by omega⟩
  have hadd : BitVec.ofNat 64 (j + 8) = BitVec.ofNat 64 j + 8 := BitVec.ofNat_add _ _
  rw [Nat.add_sub_cancel, top, top, hadd, ← BitVec.add_assoc, BitVec.add_sub_cancel]

theorem top_add (k : Nat) : S.top k + 8 = S.top (k + 8) := by
  have hadd : BitVec.ofNat 64 (k + 8) = BitVec.ofNat 64 k + 8 := BitVec.ofNat_add _ _
  rw [top, top, hadd, BitVec.add_assoc]

end Stack

end Lib.X64
