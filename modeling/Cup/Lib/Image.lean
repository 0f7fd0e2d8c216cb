/-
  Buffers that are filled by copies. A copy goes to a region of the buffer and is refused where
  it would leave it; what the last copy into a region wrote is read back from there, as long as
  the copies after it go to other regions.
-/
import Mathlib.Data.List.Basic
import Mathlib.Tactic.Common

namespace Lib.Image

variable {α : Type*}

/-! ## Regions -/

/-- The cells from `off`, `len` of them. -/
structure Region where
  off : Nat
  len : Nat
  deriving DecidableEq, Repr

namespace Region

/-- The cell behind the region. -/
def stop (r : Region) : Nat := r.off + r.len

/-- A cell of the region. -/
def Has (r : Region) (x : Nat) : Prop := r.off ≤ x ∧ x < r.stop

/-- No cell is in both regions: one is empty, or it ends before the other. -/
def Apart (r r' : Region) : Prop := r.len = 0 ∨ r'.len = 0 ∨ r.stop ≤ r'.off ∨ r'.stop ≤ r.off

instance (r r' : Region) : Decidable (r.Apart r') := by
  unfold Apart
  infer_instance

variable {r r' : Region}

theorem Apart.symm (h : r.Apart r') : r'.Apart r := by
  unfold Apart at *
  omega

theorem apart_of_stop_le (h : r.stop ≤ r'.off) : r.Apart r' := .inr (.inr (.inl h))

theorem apart_of_empty (h : r.len = 0) : r.Apart r' := .inl h

/-- A part of a region is apart from what the region is apart from. -/
theorem Apart.part {s : Region} (h : r.Apart r') (hlo : r.off ≤ s.off) (hhi : s.stop ≤ r.stop) :
    s.Apart r' := by
  unfold Apart stop at *
  omega

/-- The regions follow one another between `lo` and `hi`. -/
def Chain : Nat → Nat → List Region → Prop
  | lo, hi, [] => lo ≤ hi
  | lo, hi, r :: rs => lo ≤ r.off ∧ Chain r.stop hi rs

theorem off_le_stop (r : Region) : r.off ≤ r.stop := Nat.le_add_right _ _

namespace Chain

variable {lo mid hi : Nat} {rs rs' : List Region}

theorem le (h : Chain lo hi rs) : lo ≤ hi := by
  induction rs generalizing lo with
  | nil => exact h
  | cons r rs ih => exact Nat.le_trans h.1 (Nat.le_trans r.off_le_stop (ih h.2))

theorem mono_left {lo' : Nat} (h : Chain lo hi rs) (hle : lo' ≤ lo) : Chain lo' hi rs := by
  cases rs with
  | nil => exact Nat.le_trans hle h
  | cons r rs => exact ⟨Nat.le_trans hle h.1, h.2⟩

theorem append (h : Chain lo mid rs) (h' : Chain mid hi rs') : Chain lo hi (rs ++ rs') := by
  induction rs generalizing lo with
  | nil => exact h'.mono_left h
  | cons r rs ih => exact ⟨h.1, ih h.2⟩

/-- What is in front ends before what is behind starts. -/
theorem split (h : Chain lo hi (rs ++ rs')) : ∃ mid, Chain lo mid rs ∧ Chain mid hi rs' := by
  induction rs generalizing lo with
  | nil => exact ⟨lo, Nat.le_refl _, h⟩
  | cons r rs ih =>
    obtain ⟨mid, hrs, hrs'⟩ := ih h.2
    exact ⟨mid, ⟨h.1, hrs⟩, hrs'⟩

/-- Each region is between the ends. -/
theorem mem (h : Chain lo hi rs) (hr : r ∈ rs) : lo ≤ r.off ∧ r.stop ≤ hi := by
  induction rs generalizing lo with
  | nil => cases hr
  | cons s rs ih =>
    rcases List.mem_cons.mp hr with rfl | hmem
    · exact ⟨h.1, h.2.le⟩
    · obtain ⟨hlo, hhi⟩ := ih h.2 hmem
      exact ⟨Nat.le_trans h.1 (Nat.le_trans s.off_le_stop hlo), hhi⟩

theorem pairwise (h : Chain lo hi rs) : rs.Pairwise Apart := by
  induction rs generalizing lo with
  | nil => exact .nil
  | cons s rs ih =>
    exact List.pairwise_cons.mpr ⟨fun r hr => apart_of_stop_le (h.2.mem hr).1, ih h.2⟩

end Chain

end Region

/-! ## Copies -/

/-- What is copied, and to where. -/
structure Piece (α : Type*) where
  off : Nat
  data : List α

/-- The region a piece fills. -/
def Piece.region (p : Piece α) : Region := ⟨p.off, p.data.length⟩

@[simp] theorem Piece.region_off (p : Piece α) : p.region.off = p.off := rfl

@[simp] theorem Piece.region_stop (p : Piece α) : p.region.stop = p.off + p.data.length := rfl

/-- The cells from `off`, where there are `n` of them. -/
def read (buf : List α) (off n : Nat) : Option (List α) :=
  if off + n ≤ buf.length then some ((buf.drop off).take n) else none

/-- A piece is copied into the buffer, where it fits. -/
def write (buf : List α) (p : Piece α) : Option (List α) :=
  if p.off + p.data.length ≤ buf.length then
    some (buf.take p.off ++ p.data ++ buf.drop (p.off + p.data.length))
  else none

/-- Pieces are copied one after the other. -/
def writeAll : List α → List (Piece α) → Option (List α)
  | buf, [] => some buf
  | buf, p :: ps => (write buf p).bind fun buf => writeAll buf ps

variable {buf buf' : List α} {p q : Piece α} {ps : List (Piece α)} {off n : Nat} {bs : List α}

theorem read_eq_some : read buf off n = some bs ↔
    off + n ≤ buf.length ∧ (buf.drop off).take n = bs := by
  rw [read, Option.ite_none_right_eq_some, Option.some_inj]

theorem write_eq_some : write buf p = some buf' ↔ p.off + p.data.length ≤ buf.length ∧
    buf.take p.off ++ p.data ++ buf.drop (p.off + p.data.length) = buf' := by
  rw [write, Option.ite_none_right_eq_some, Option.some_inj]

theorem write_length (h : write buf p = some buf') : buf'.length = buf.length := by
  obtain ⟨hfit, rfl⟩ := write_eq_some.mp h
  simp only [List.length_append, List.length_take, List.length_drop]
  omega

theorem getElem?_write (h : write buf p = some buf') (i : Nat) :
    buf'[i]? = if p.off ≤ i ∧ i < p.off + p.data.length then p.data[i - p.off]? else buf[i]? := by
  obtain ⟨hfit, rfl⟩ := write_eq_some.mp h
  have htake : (buf.take p.off).length = p.off := by
    rw [List.length_take]
    omega
  by_cases hlo : i < p.off
  · rw [if_neg (by omega), List.append_assoc, List.getElem?_append_left (by omega),
      List.getElem?_take_of_lt hlo]
  · by_cases hhi : i < p.off + p.data.length
    · rw [if_pos ⟨by omega, hhi⟩, List.append_assoc, List.getElem?_append_right (by omega), htake,
        List.getElem?_append_left (by omega)]
    · have hlen : (buf.take p.off ++ p.data).length = p.off + p.data.length := by
        rw [List.length_append, htake]
      rw [if_neg (by omega), List.getElem?_append_right (by omega), hlen, List.getElem?_drop]
      congr 1
      omega

/-- A copy to the front of `mid`. -/
theorem write_between {pre mid post data : List α} {off : Nat} (hoff : off = pre.length)
    (h : data.length ≤ mid.length) : write (pre ++ mid ++ post) ⟨off, data⟩ =
      some (pre ++ (data ++ mid.drop data.length) ++ post) := by
  subst hoff
  refine write_eq_some.mpr ⟨?_, ?_⟩
  · rw [List.length_append, List.length_append]
    dsimp only
    omega
  · dsimp only
    rw [List.append_assoc pre mid post, List.take_left, ← List.drop_drop, List.drop_left,
      List.drop_append_of_le_length h]
    simp only [List.append_assoc]

/-- What was copied is read back. -/
theorem read_write_self (h : write buf p = some buf') :
    read buf' p.off p.data.length = some p.data := by
  have hlen := write_length h
  obtain ⟨hfit, -⟩ := write_eq_some.mp h
  refine read_eq_some.mpr ⟨by omega, ?_⟩
  apply List.ext_getElem?
  intro i
  by_cases hi : i < p.data.length
  · rw [List.getElem?_take_of_lt hi, List.getElem?_drop, getElem?_write h, if_pos (by omega),
      Nat.add_sub_cancel_left]
  · rw [List.getElem?_eq_none (by rw [List.length_take]; omega),
      List.getElem?_eq_none (Nat.le_of_not_lt hi)]

/-- A copy elsewhere does not change what is read. -/
theorem read_write_apart (h : write buf p = some buf') (ha : p.region.Apart ⟨off, n⟩) :
    read buf' off n = read buf off n := by
  have hlen := write_length h
  unfold read
  rw [hlen]
  split
  · congr 1
    apply List.ext_getElem?
    intro i
    by_cases hi : i < n
    · have hout : ¬ (p.off ≤ off + i ∧ off + i < p.off + p.data.length) := by
        unfold Piece.region Region.Apart Region.stop at ha
        dsimp only at ha
        omega
      rw [List.getElem?_take_of_lt hi, List.getElem?_take_of_lt hi, List.getElem?_drop,
        List.getElem?_drop, getElem?_write h, if_neg hout]
    · rw [List.getElem?_eq_none (by rw [List.length_take]; omega),
        List.getElem?_eq_none (by rw [List.length_take]; omega)]
  · rfl

theorem writeAll_cons : writeAll buf (p :: ps) = some buf' ↔
    ∃ b, write buf p = some b ∧ writeAll b ps = some buf' := by
  rw [writeAll, Option.bind_eq_some_iff]

/-- The first copies, then the others. -/
theorem writeAll_append {qs : List (Piece α)} : writeAll buf (ps ++ qs) = some buf' ↔
    ∃ b, writeAll buf ps = some b ∧ writeAll b qs = some buf' := by
  induction ps generalizing buf with
  | nil =>
    refine ⟨fun h => ⟨buf, rfl, h⟩, fun ⟨b, hb, h⟩ => ?_⟩
    rw [Option.some.inj hb]
    exact h
  | cons p ps ih =>
    rw [List.cons_append, writeAll_cons]
    constructor
    · rintro ⟨b, hp, h⟩
      obtain ⟨b', hps, hqs⟩ := ih.mp h
      exact ⟨b', writeAll_cons.mpr ⟨b, hp, hps⟩, hqs⟩
    · rintro ⟨b', hps, hqs⟩
      obtain ⟨b, hp, hps⟩ := writeAll_cons.mp hps
      exact ⟨b, hp, ih.mpr ⟨b', hps, hqs⟩⟩

theorem writeAll_length (h : writeAll buf ps = some buf') : buf'.length = buf.length := by
  induction ps generalizing buf with
  | nil => rw [← Option.some.inj h]
  | cons p ps ih =>
    obtain ⟨b, hp, hps⟩ := writeAll_cons.mp h
    rw [ih hps, write_length hp]

/-- The copies are all made as soon as each of them fits. -/
theorem exists_writeAll (h : ∀ p ∈ ps, p.off + p.data.length ≤ buf.length) :
    ∃ buf', writeAll buf ps = some buf' := by
  induction ps generalizing buf with
  | nil => exact ⟨buf, rfl⟩
  | cons p ps ih =>
    have hp : write buf p = some _ := if_pos (h p List.mem_cons_self)
    have hlen := write_length hp
    obtain ⟨b, hb⟩ := ih fun q hq => by
      rw [hlen]
      exact h q (List.mem_cons_of_mem _ hq)
    exact ⟨b, writeAll_cons.mpr ⟨_, hp, hb⟩⟩

theorem read_writeAll_apart (h : writeAll buf ps = some buf')
    (ha : ∀ p ∈ ps, p.region.Apart ⟨off, n⟩) : read buf' off n = read buf off n := by
  induction ps generalizing buf with
  | nil => rw [← Option.some.inj h]
  | cons p ps ih =>
    obtain ⟨b, hp, hps⟩ := writeAll_cons.mp h
    rw [ih hps fun q hq => ha q (List.mem_cons_of_mem _ hq),
      read_write_apart hp (ha p List.mem_cons_self)]

/-- Pieces for regions that are apart from each other are all read back. -/
theorem read_writeAll (h : writeAll buf ps = some buf')
    (ha : ps.Pairwise fun p q => p.region.Apart q.region) (hp : p ∈ ps) :
    read buf' p.off p.data.length = some p.data := by
  induction ps generalizing buf with
  | nil => cases hp
  | cons q ps ih =>
    obtain ⟨hq, hps⟩ := List.pairwise_cons.mp ha
    obtain ⟨b, hwrite, hrest⟩ := writeAll_cons.mp h
    rcases List.mem_cons.mp hp with rfl | hmem
    · rw [read_writeAll_apart hrest fun r hr => (hq r hr).symm]
      exact read_write_self hwrite
    · exact ih hrest hps hmem

/-- An entry of one size among its like. -/
theorem read_flatMap {β : Type*} {f : β → List α} {k j : Nat} {l : List β} {b : β}
    (hf : ∀ c ∈ l, (f c).length = k) (hj : l[j]? = some b) :
    read (l.flatMap f) (j * k) k = some (f b) := by
  induction l generalizing j with
  | nil => cases hj
  | cons c l ih =>
    have hc := hf c List.mem_cons_self
    rw [List.flatMap_cons]
    cases j with
    | zero =>
      obtain rfl := Option.some.inj hj
      refine read_eq_some.mpr ⟨?_, ?_⟩
      · rw [List.length_append]
        omega
      · rw [Nat.zero_mul, List.drop_zero, ← hc, List.take_left]
    | succ j =>
      obtain ⟨hfit, htake⟩ := read_eq_some.mp (ih (fun d hd => hf d (List.mem_cons_of_mem _ hd)) hj)
      have hmul : (j + 1) * k = k + j * k := by rw [Nat.succ_mul, Nat.add_comm]
      refine read_eq_some.mpr ⟨?_, ?_⟩
      · rw [List.length_append, hmul]
        omega
      · rw [hmul, ← List.drop_drop, ← hc, List.drop_left, hc, htake]

theorem length_flatMap {β : Type*} {f : β → List α} {k : Nat} {l : List β}
    (hf : ∀ c ∈ l, (f c).length = k) : (l.flatMap f).length = l.length * k := by
  induction l with
  | nil => rw [List.length_nil, Nat.zero_mul]; rfl
  | cons c l ih =>
    rw [List.flatMap_cons, List.length_append, hf c List.mem_cons_self,
      ih fun d hd => hf d (List.mem_cons_of_mem _ hd), List.length_cons, Nat.succ_mul, Nat.add_comm]

end Lib.Image
