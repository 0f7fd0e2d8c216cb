/-
  The layout of a built ELF file: which parts of the file are apart from each other.

  What the layout places itself forms a chain of regions that starts at `fixed_end` (`chain_high`);
  the ELF header, a program-header table that stays where the header says and the sections that
  stay in place end before it. So the parts are apart, and every copy stays in the buffer, as soon
  as the parts below `fixed_end` are apart (`Clear`).
-/
import Cup.ElfBuild
import Cup.ElfLoad

namespace Cup.Elf

open Lib.Image (Region Piece)
open Lib.Image.Region (Apart Chain)

/-! ## Sums that do not overflow -/

/-- `u + v` does not overflow. -/
def AddFits (u v : UInt64) : Prop := u.toNat + v.toNat < 2 ^ 64

/-- The sum in `lielf__align_up` does not overflow. -/
def AlignFits (v a : UInt64) : Prop := v.toNat + (a.toNat - 1) < 2 ^ 64

/-- No sum overflows while the sections of a class are placed. -/
def PlaceFits (b : Binary) (c : SecClass) : UInt64 → List Section → Prop
  | _, [] => True
  | cur, s :: ss =>
    if secClass b s = c then
      AlignFits cur s.al ∧ AddFits (alignUp cur s.al) s.fileSize ∧
        PlaceFits b c (alignUp cur s.al + s.fileSize) ss
    else PlaceFits b c cur ss

/-- No 64-bit sum of offsets overflows in the layout of a binary with its tables. -/
structure LayoutFits (b : Binary) : Prop where
  header : 64 + b.segments.length * phdrSize < 2 ^ 64
  phoff : b.ehdr.phoff.toNat + b.segments.length * phdrSize < 2 ^ 64
  kept : ∀ s ∈ b.sections.tail, secClass b s = .fixed → AddFits s.offset s.fileSize
  start : AlignFits (fixedEnd b) (if b.isRel then 8 else pageSize)
  alloc : PlaceFits b .newAlloc (allocStart b) b.sections.tail
  metaStart : AlignFits (placeAlloc b).2 8
  metadata : PlaceFits b .metadata (alignUp (placeAlloc b).2 8) (placeAlloc b).1
  phdrStart : phdrsMove b → layoutSegments b ≠ [] → AlignFits (placeMeta b).2 8
  phdrEnd : phdrsMove b → layoutSegments b ≠ [] →
    (phdrOff b).toNat + (layoutSegments b).length * phdrSize < 2 ^ 64
  shdrStart : AlignFits (metaEnd b) 8
  shdrEnd : (shdrOff b).toNat + b.sections.length * shdrSize < 2 ^ 64

theorem AddFits.toNat {u v : UInt64} (h : AddFits u v) : (u + v).toNat = u.toNat + v.toNat := by
  rw [UInt64.toNat_add, Nat.mod_eq_of_lt h]

/-- Clearing the bits of `m` takes away at most `m`. -/
theorem le_and_not (x m : UInt64) : x.toNat ≤ (x &&& ~~~m).toNat + m.toNat := by
  obtain ⟨x⟩ := x
  obtain ⟨m⟩ := m
  have hdisj : (x &&& ~~~m) &&& (x &&& m) = 0#64 := by
    ext i hi
    simp only [BitVec.getElem_and, BitVec.getElem_not, BitVec.getElem_zero]
    cases x[i] <;> cases m[i] <;> rfl
  have hor : (x &&& ~~~m) ||| (x &&& m) = x := by
    ext i hi
    simp only [BitVec.getElem_and, BitVec.getElem_not, BitVec.getElem_or]
    cases x[i] <;> cases m[i] <;> rfl
  have hsum := BitVec.toNat_add_of_and_eq_zero hdisj
  have hle : (x &&& m).toNat ≤ m.toNat := by
    rw [BitVec.toNat_and]
    exact Nat.and_le_right
  rw [BitVec.add_eq_or_of_and_eq_zero _ _ hdisj, hor] at hsum
  show x.toNat ≤ (x &&& ~~~m).toNat + m.toNat
  omega

theorem le_alignUp {v a : UInt64} (h : AlignFits v a) : v.toNat ≤ (alignUp v a).toNat := by
  unfold alignUp
  split
  · exact Nat.le_refl _
  · rename_i ha
    have hone : 1 ≤ a := UInt64.le_of_lt (UInt64.not_le.mp ha)
    have hsub : (a - 1).toNat = a.toNat - 1 := by
      rw [UInt64.toNat_sub_of_le _ _ hone, UInt64.toNat_one]
    have hadd : (v + (a - 1)).toNat = v.toNat + (a.toNat - 1) := by
      rw [UInt64.toNat_add, hsub, Nat.mod_eq_of_lt h]
    have hle := le_and_not (v + (a - 1)) (a - 1)
    rw [hadd, hsub] at hle
    exact Nat.le_of_add_le_add_right hle

theorem phdrsSize_toNat {n : Nat} (h : n * phdrSize < 2 ^ 64) :
    (phdrsSize n).toNat = n * phdrSize := by
  have hn : n < 2 ^ 64 := by
    unfold phdrSize at h
    omega
  have hs : (UInt64.ofNat phdrSize).toNat = phdrSize := rfl
  rw [phdrsSize, UInt64.toNat_mul, UInt64.toNat_ofNat_of_lt' hn, hs, Nat.mod_eq_of_lt h]

/-! ## Placement -/

/-- The bytes of a section in the file. -/
def Section.fileRegion (s : Section) : Region := ⟨s.offset.toNat, s.fileSize.toNat⟩

/-- The sections of a class, as the binary `b` classifies them. -/
def ofClass (b : Binary) (c : SecClass) (secs : List Section) : List Section :=
  secs.filter fun s => decide (secClass b s = c)

variable {b : Binary} {c : SecClass} {addrOf : UInt64 → UInt64}

/-- A section with another offset and address is of the same class. -/
theorem secClass_moved (s : Section) (off addr : UInt64) :
    secClass b { s with offset := off, addr := addr } = secClass b s := rfl

theorem ofClass_place_ne {c' : SecClass} (h : c' ≠ c) (cur : UInt64) (secs : List Section) :
    ofClass b c' (place b c addrOf cur secs).1 = ofClass b c' secs := by
  induction secs generalizing cur with
  | nil => rfl
  | cons s ss ih =>
    unfold place
    by_cases hc : secClass b s = c
    · have hne : ¬ secClass b s = c' := fun h' => h (h' ▸ hc)
      rw [if_pos hc]
      dsimp only
      unfold ofClass at ih ⊢
      rw [List.filter_cons_of_neg (by rw [secClass_moved]; simpa using hne),
        List.filter_cons_of_neg (by simpa using hne), ih]
    · rw [if_neg hc]
      dsimp only
      unfold ofClass at ih ⊢
      rw [List.filter_cons, List.filter_cons, ih]

/-- The sections of a class are placed one after the other. -/
theorem chain_place {cur : UInt64} {secs : List Section} (h : PlaceFits b c cur secs) :
    Chain cur.toNat (place b c addrOf cur secs).2.toNat
      ((ofClass b c (place b c addrOf cur secs).1).map Section.fileRegion) := by
  induction secs generalizing cur with
  | nil => exact Nat.le_refl _
  | cons s ss ih =>
    unfold PlaceFits at h
    unfold place
    by_cases hc : secClass b s = c
    · rw [if_pos hc] at h ⊢
      obtain ⟨halign, hadd, hrest⟩ := h
      have hchain := ih hrest
      rw [hadd.toNat] at hchain
      dsimp only
      unfold ofClass at hchain ⊢
      rw [List.filter_cons_of_pos (by rw [secClass_moved]; simpa using hc), List.map_cons]
      exact ⟨le_alignUp halign, hchain⟩
    · rw [if_neg hc] at h ⊢
      dsimp only
      unfold ofClass
      rw [List.filter_cons_of_neg (by simpa using hc)]
      exact ih h

theorem place_length (cur : UInt64) (secs : List Section) :
    (place b c addrOf cur secs).1.length = secs.length := by
  induction secs generalizing cur with
  | nil => rfl
  | cons s ss ih =>
    unfold place
    split
    · exact congrArg (· + 1) (ih _)
    · exact congrArg (· + 1) (ih _)

/-! ## The end of what stays -/

theorem le_maxEnd (e : UInt64) (s : Section) : e.toNat ≤ (maxEnd b e s).toNat := by
  unfold maxEnd
  split
  · rename_i h
    exact Nat.le_of_lt (UInt64.lt_iff_toNat_lt.mp h.2)
  · exact Nat.le_refl _

theorem le_foldl_maxEnd (e : UInt64) (secs : List Section) :
    e.toNat ≤ (secs.foldl (maxEnd b) e).toNat := by
  induction secs generalizing e with
  | nil => exact Nat.le_refl _
  | cons s ss ih => exact Nat.le_trans (le_maxEnd e s) (ih _)

theorem mem_le_foldl_maxEnd {e : UInt64} {secs : List Section} {s : Section} (hs : s ∈ secs)
    (hc : secClass b s = .fixed) :
    (s.offset + s.fileSize).toNat ≤ (secs.foldl (maxEnd b) e).toNat := by
  induction secs generalizing e with
  | nil => cases hs
  | cons t ss ih =>
    rcases List.mem_cons.mp hs with rfl | hmem
    · refine Nat.le_trans ?_ (le_foldl_maxEnd _ ss)
      unfold maxEnd
      split
      · exact Nat.le_refl _
      · rename_i hle
        have hnot : ¬ s.offset + s.fileSize > e := fun h => hle ⟨hc, h⟩
        exact UInt64.le_iff_toNat_le.mp (UInt64.not_lt.mp hnot)
    · exact ih hmem

theorem headersEnd_le : (headersEnd b).toNat ≤ (fixedEnd b).toNat := le_foldl_maxEnd _ _

theorem le_headersEnd (hfit : LayoutFits b) : 64 + b.segments.length * phdrSize ≤ (headersEnd b).toNat ∧
    (b.segments ≠ [] → b.ehdr.phoff.toNat + b.segments.length * phdrSize ≤ (headersEnd b).toNat) := by
  have hheader := hfit.header
  have hphoff := hfit.phoff
  have hsize : (phdrsSize b.segments.length).toNat = b.segments.length * phdrSize :=
    phdrsSize_toNat (by omega)
  have hlo : (64 + phdrsSize b.segments.length).toNat = 64 + b.segments.length * phdrSize := by
    rw [UInt64.toNat_add, hsize]
    exact Nat.mod_eq_of_lt hheader
  have hhi : (b.ehdr.phoff + phdrsSize b.segments.length).toNat =
      b.ehdr.phoff.toNat + b.segments.length * phdrSize := by
    rw [UInt64.toNat_add, hsize, Nat.mod_eq_of_lt hphoff]
  unfold headersEnd
  split
  · rename_i hnil
    rw [hnil]
    exact ⟨Nat.le_refl _, fun h => absurd rfl h⟩
  · dsimp only
    split
    · rename_i hgt
      have hlt := UInt64.lt_iff_toNat_lt.mp hgt
      exact ⟨Nat.le_of_eq hlo.symm, fun _ => by omega⟩
    · rename_i hgt
      have hle := UInt64.le_iff_toNat_le.mp (UInt64.not_lt.mp hgt)
      exact ⟨by omega, fun _ => Nat.le_of_eq hhi.symm⟩

/-! ## The parts of the file -/

def ehdrRegion : Region := ⟨0, ehdrSize⟩

/-- The program-header table that a header and its segments describe. -/
def phdrRegion (b : Binary) : Region := ⟨b.ehdr.phoff.toNat, b.segments.length * phdrSize⟩

def shdrRegion (b : Binary) : Region := ⟨b.ehdr.shoff.toNat, b.sections.length * shdrSize⟩

/-- The sections the layout of `b` gives a place. -/
def newlyPlaced (b : Binary) : List Section :=
  ofClass b .newAlloc (layout b).sections.tail ++ ofClass b .metadata (layout b).sections.tail

/-- The sections that stay where they are. -/
def keptInPlace (b : Binary) : List Section := ofClass b .fixed (layout b).sections.tail

/-- The ELF header, the two header tables and the bytes of the newly placed sections. -/
def placedRegions (b : Binary) : List Region :=
  ehdrRegion :: phdrRegion (layout b) :: shdrRegion (layout b) ::
    (newlyPlaced b).map Section.fileRegion

/-- Every copy stays in the buffer, and the parts of the file are apart from each other and from
the sections that stay in place. -/
structure Tidy (b : Binary) : Prop where
  inside : ∀ p ∈ pieces (layout b), p.region.stop ≤ (totalSize b).toNat
  apart : (placedRegions b).Pairwise Apart
  kept : ∀ r ∈ placedRegions b, ∀ s ∈ keptInPlace b, r.Apart s.fileRegion

/-- The program headers stay where the header of the binary says. -/
def PhdrsStay (b : Binary) : Prop := b.segments ≠ [] ∧ (b.isRel = true ∨ anyNewAlloc b = false)

/-- What stays below `fixed_end` is apart: a program-header table that stays is behind the ELF
header and apart from the kept sections, and these are behind the ELF header. -/
structure Clear (b : Binary) : Prop where
  phdrs : PhdrsStay b → ehdrSize ≤ b.ehdr.phoff.toNat
  kept : ∀ s ∈ ofClass b .fixed b.sections.tail,
    ehdrRegion.Apart s.fileRegion ∧ (PhdrsStay b → (phdrRegion b).Apart s.fileRegion)

/-- No section of type `SHT_NULL` behind the first has bytes. -/
def NullFree (b : Binary) : Prop :=
  ∀ s ∈ b.sections.tail, s.type = shtNull → s.data = none ∨ s.size = 0

theorem layout_tail (b : Binary) : (layout b).sections.tail = (placeMeta b).1 := by
  unfold layout
  have hlen : (placeMeta b).1.length = b.sections.tail.length := by
    rw [placeMeta, place_length, placeAlloc, place_length]
  cases h : b.sections with
  | cons s ss => rfl
  | nil =>
    rw [h, List.tail_nil, List.length_nil] at hlen
    rw [List.length_eq_zero_iff.mp hlen]
    rfl

theorem layout_length (b : Binary) : (layout b).sections.length = b.sections.length := by
  have hlen : (placeMeta b).1.length = b.sections.tail.length := by
    rw [placeMeta, place_length, placeAlloc, place_length]
  show (b.sections.take 1 ++ (placeMeta b).1).length = b.sections.length
  rw [List.length_append, hlen, List.length_take, List.length_tail]
  omega

theorem keptInPlace_eq (b : Binary) : keptInPlace b = ofClass b .fixed b.sections.tail := by
  rw [keptInPlace, layout_tail, placeMeta, ofClass_place_ne (by decide), placeAlloc,
    ofClass_place_ne (by decide)]

theorem newAlloc_layout (b : Binary) :
    ofClass b .newAlloc (layout b).sections.tail = ofClass b .newAlloc (placeAlloc b).1 := by
  rw [layout_tail, placeMeta, ofClass_place_ne (by decide)]

/-- The program headers move, unless they stay or there are none. -/
theorem phdrsMove_iff (b : Binary) : phdrsMove b = true ↔ ¬ PhdrsStay b := by
  unfold phdrsMove PhdrsStay layoutSegments
  cases b.segments with
  | nil => simp
  | cons s ss => cases b.isRel <;> cases anyNewAlloc b <;> simp

theorem layoutSegments_of_stay (h : PhdrsStay b) : layoutSegments b = b.segments := by
  unfold layoutSegments
  rcases h.2 with h | h
  · rw [h]
    rfl
  · rw [h, Bool.and_false]
    rfl

theorem phdrRegion_of_stay (h : PhdrsStay b) : phdrRegion (layout b) = phdrRegion b := by
  have hmove : ¬ phdrsMove b = true := fun hm => (phdrsMove_iff b).mp hm h
  have hsegs := layoutSegments_of_stay h
  show Region.mk (if layoutSegments b = [] then 0 else phdrOff b).toNat
    ((layoutSegments b).length * phdrSize) = phdrRegion b
  rw [hsegs, if_neg h.1, phdrOff, if_neg hmove]
  rfl

/-- The section headers are the end of the file. -/
theorem shdrRegion_layout (hfit : LayoutFits b) :
    (shdrRegion (layout b)).off = (shdrOff b).toNat ∧
      (shdrRegion (layout b)).stop = (totalSize b).toNat := by
  have hend := hfit.shdrEnd
  have hlen : b.sections.length < 2 ^ 64 := by
    unfold shdrSize at hend
    omega
  have hs : (UInt64.ofNat shdrSize).toNat = shdrSize := rfl
  refine ⟨rfl, ?_⟩
  rw [totalSize, UInt64.toNat_add, UInt64.toNat_mul, UInt64.toNat_ofNat_of_lt' hlen, hs,
    Nat.mod_eq_of_lt (Nat.lt_of_le_of_lt (Nat.le_add_left _ _) hend), Nat.mod_eq_of_lt hend]
  show (shdrOff b).toNat + (layout b).sections.length * shdrSize = _
  rw [layout_length]

/-- The program headers, where there are some and they move. -/
def movedPhdrs (b : Binary) : List Region :=
  if phdrsMove b ∧ layoutSegments b ≠ [] then [phdrRegion (layout b)] else []

theorem chain_movedPhdrs (hfit : LayoutFits b) :
    Chain (placeMeta b).2.toNat (metaEnd b).toNat (movedPhdrs b) := by
  unfold metaEnd movedPhdrs
  by_cases h : phdrsMove b ∧ layoutSegments b ≠ []
  · have halign := le_alignUp (hfit.phdrStart h.1 h.2)
    have hend := hfit.phdrEnd h.1 h.2
    have hoff : phdrOff b = alignUp (placeMeta b).2 8 := by rw [phdrOff, if_pos h.1, if_neg h.2]
    have hsize : (phdrsSize (layoutSegments b).length).toNat =
        (layoutSegments b).length * phdrSize := phdrsSize_toNat (by omega)
    have hregion : phdrRegion (layout b) =
        ⟨(phdrOff b).toNat, (layoutSegments b).length * phdrSize⟩ := by
      show Region.mk (if layoutSegments b = [] then 0 else phdrOff b).toNat _ = _
      rw [if_neg h.2]
      rfl
    rw [if_pos h, if_pos h, hregion, UInt64.toNat_add, hsize, Nat.mod_eq_of_lt hend]
    exact ⟨hoff ▸ halign, Nat.le_refl _⟩
  · rw [if_neg h, if_neg h]
    exact Nat.le_refl _

/-- What the layout places is a chain from `fixed_end` to the end of the file. -/
theorem chain_high (hfit : LayoutFits b) :
    Chain (fixedEnd b).toNat (totalSize b).toNat
      ((newlyPlaced b).map Section.fileRegion ++
        (movedPhdrs b ++ [shdrRegion (layout b)])) := by
  obtain ⟨hoff, hstop⟩ := shdrRegion_layout hfit
  have halloc : Chain (fixedEnd b).toNat (placeAlloc b).2.toNat
      ((ofClass b .newAlloc (placeAlloc b).1).map Section.fileRegion) :=
    (chain_place hfit.alloc).mono_left (le_alignUp hfit.start)
  have hmeta : Chain (placeAlloc b).2.toNat (placeMeta b).2.toNat
      ((ofClass b .metadata (placeMeta b).1).map Section.fileRegion) :=
    (chain_place hfit.metadata).mono_left (le_alignUp hfit.metaStart)
  have hshdr : Chain (metaEnd b).toNat (totalSize b).toNat [shdrRegion (layout b)] := by
    refine ⟨?_, Nat.le_of_eq hstop⟩
    rw [hoff]
    exact le_alignUp hfit.shdrStart
  rw [newlyPlaced, List.map_append, newAlloc_layout, layout_tail]
  exact (halloc.append hmeta).append ((chain_movedPhdrs hfit).append hshdr)

/-! ## Below and above `fixed_end` -/

theorem ehdr_below (hfit : LayoutFits b) : ehdrRegion.stop ≤ (fixedEnd b).toNat := by
  have hhead := (le_headersEnd hfit).1
  have hle := headersEnd_le (b := b)
  show 0 + 64 ≤ _
  omega

theorem phdr_below (hfit : LayoutFits b) (h : PhdrsStay b) :
    (phdrRegion b).stop ≤ (fixedEnd b).toNat :=
  Nat.le_trans ((le_headersEnd hfit).2 h.1) headersEnd_le

theorem kept_below (hfit : LayoutFits b) {s : Section}
    (hs : s ∈ ofClass b .fixed b.sections.tail) : s.fileRegion.stop ≤ (fixedEnd b).toNat := by
  obtain ⟨hmem, hc⟩ := List.mem_filter.mp hs
  have hclass := of_decide_eq_true hc
  have hle := mem_le_foldl_maxEnd (e := headersEnd b) hmem hclass
  rw [(hfit.kept s hmem hclass).toNat] at hle
  exact hle

theorem above {r : Region} (hfit : LayoutFits b)
    (hr : r ∈ (newlyPlaced b).map Section.fileRegion ++ (movedPhdrs b ++ [shdrRegion (layout b)])) :
    (fixedEnd b).toNat ≤ r.off ∧ r.stop ≤ (totalSize b).toNat := (chain_high hfit).mem hr

/-- The program-header table stays below, is empty, or is one of the parts above. -/
theorem phdrRegion_cases (b : Binary) :
    PhdrsStay b ∧ phdrRegion (layout b) = phdrRegion b ∨ (phdrRegion (layout b)).len = 0 ∨
      movedPhdrs b = [phdrRegion (layout b)] := by
  by_cases hstay : PhdrsStay b
  · exact .inl ⟨hstay, phdrRegion_of_stay hstay⟩
  · have hmove := (phdrsMove_iff b).mpr hstay
    by_cases hsegs : layoutSegments b = []
    · refine .inr (.inl ?_)
      show (layoutSegments b).length * phdrSize = 0
      rw [hsegs]
      rfl
    · exact .inr (.inr (if_pos ⟨hmove, hsegs⟩))

theorem fixedEnd_le_total (hfit : LayoutFits b) : (fixedEnd b).toNat ≤ (totalSize b).toNat :=
  (chain_high hfit).le

/-- The program-header table is apart from a part above, other than itself. -/
theorem phdr_apart_above (hfit : LayoutFits b) {r : Region}
    (hr : r = shdrRegion (layout b) ∨ r ∈ (newlyPlaced b).map Section.fileRegion) :
    (phdrRegion (layout b)).Apart r := by
  have hmem : r ∈ (newlyPlaced b).map Section.fileRegion ++
      (movedPhdrs b ++ [shdrRegion (layout b)]) := by
    rcases hr with rfl | hr
    · exact List.mem_append_right _ (List.mem_append_right _ (List.mem_singleton_self _))
    · exact List.mem_append_left _ hr
  rcases phdrRegion_cases b with ⟨hstay, heq⟩ | hempty | hmoved
  · rw [heq]
    exact Lib.Image.Region.apart_of_stop_le
      (Nat.le_trans (phdr_below hfit hstay) (above hfit hmem).1)
  · exact Lib.Image.Region.apart_of_empty hempty
  · have hpair := (chain_high hfit).pairwise
    rw [hmoved, List.pairwise_append] at hpair
    rcases hr with rfl | hr
    · exact (List.pairwise_cons.mp hpair.2.1).1 _ (List.mem_singleton_self _)
    · exact (hpair.2.2 r hr _ List.mem_cons_self).symm

/-! ## Tidy files -/

theorem ehdr_apart_phdr (hfit : LayoutFits b) (hclear : Clear b) :
    ehdrRegion.Apart (phdrRegion (layout b)) := by
  rcases phdrRegion_cases b with ⟨hstay, heq⟩ | hempty | hmoved
  · rw [heq]
    exact Lib.Image.Region.apart_of_stop_le (Nat.le_trans (Nat.le_of_eq (Nat.zero_add _))
      (hclear.phdrs hstay))
  · exact (Lib.Image.Region.apart_of_empty hempty).symm
  · have hmem : phdrRegion (layout b) ∈ (newlyPlaced b).map Section.fileRegion ++
        (movedPhdrs b ++ [shdrRegion (layout b)]) := by
      rw [hmoved]
      exact List.mem_append_right _ List.mem_cons_self
    exact Lib.Image.Region.apart_of_stop_le (Nat.le_trans (ehdr_below hfit) (above hfit hmem).1)

theorem placedRegions_pairwise (hfit : LayoutFits b) (hclear : Clear b) :
    (placedRegions b).Pairwise Apart := by
  have hhigh := (chain_high hfit).pairwise
  rw [List.pairwise_append, List.pairwise_append] at hhigh
  obtain ⟨hnew, -, hcross⟩ := hhigh
  have hshdr : shdrRegion (layout b) ∈ movedPhdrs b ++ [shdrRegion (layout b)] :=
    List.mem_append_right _ (List.mem_singleton_self _)
  refine List.pairwise_cons.mpr ⟨fun r hr => ?_, List.pairwise_cons.mpr ⟨fun r hr => ?_,
    List.pairwise_cons.mpr ⟨fun r hr => (hcross r hr _ hshdr).symm, hnew⟩⟩⟩
  · rcases List.mem_cons.mp hr with rfl | hr
    · exact ehdr_apart_phdr hfit hclear
    · have hmem : r ∈ (newlyPlaced b).map Section.fileRegion ++
          (movedPhdrs b ++ [shdrRegion (layout b)]) := by
        rcases List.mem_cons.mp hr with rfl | hr
        · exact List.mem_append_right _ hshdr
        · exact List.mem_append_left _ hr
      exact Lib.Image.Region.apart_of_stop_le (Nat.le_trans (ehdr_below hfit) (above hfit hmem).1)
  · exact phdr_apart_above hfit (List.mem_cons.mp hr)

theorem placedRegions_apart_kept (hfit : LayoutFits b) (hclear : Clear b) {r : Region}
    (hr : r ∈ placedRegions b) {s : Section} (hs : s ∈ keptInPlace b) : r.Apart s.fileRegion := by
  rw [keptInPlace_eq] at hs
  have hbelow := kept_below hfit hs
  obtain ⟨hehdr, hphdr⟩ := hclear.kept s hs
  -- what is above `fixed_end` is behind every kept section
  have habove : ∀ t ∈ (newlyPlaced b).map Section.fileRegion ++
      (movedPhdrs b ++ [shdrRegion (layout b)]), t.Apart s.fileRegion := fun t ht =>
    (Lib.Image.Region.apart_of_stop_le (Nat.le_trans hbelow (above hfit ht).1)).symm
  rcases List.mem_cons.mp hr with rfl | hr
  · exact hehdr
  rcases List.mem_cons.mp hr with rfl | hr
  · rcases phdrRegion_cases b with ⟨hstay, heq⟩ | hempty | hmoved
    · rw [heq]
      exact hphdr hstay
    · exact Lib.Image.Region.apart_of_empty hempty
    · refine habove _ (List.mem_append_right _ (List.mem_append_left _ ?_))
      rw [hmoved]
      exact List.mem_singleton_self _
  rcases List.mem_cons.mp hr with rfl | hr
  · exact habove _ (List.mem_append_right _ (List.mem_append_right _ (List.mem_singleton_self _)))
  · exact habove _ (List.mem_append_left _ hr)

/-! ## Copies -/

@[simp] theorem Ehdr.bytes_length (h : Ehdr) : h.bytes.length = ehdrSize := by
  simp [Ehdr.bytes, le16, le32, le64, ehdrSize]

@[simp] theorem Shdr.bytes_length (h : Shdr) : h.bytes.length = shdrSize := by
  simp [Shdr.bytes, le32, le64, shdrSize]

@[simp] theorem Phdr.bytes_length (h : Phdr) : h.bytes.length = phdrSize := by
  simp [Phdr.bytes, le32, le64, phdrSize]

/-- Entries of one size stay in the region of their table. -/
theorem entryPieces_region {off size : Nat} {entries : List Bytes} {p : Piece UInt8}
    (hsize : ∀ e ∈ entries, e.length = size) (hp : p ∈ entryPieces off size entries) :
    off ≤ p.off ∧ p.region.stop ≤ off + entries.length * size := by
  obtain ⟨⟨e, i⟩, he, rfl⟩ := List.mem_map.mp hp
  have hi : i < entries.length := by
    have h := List.snd_lt_of_mem_zipIdx he
    rwa [Nat.add_zero] at h
  have hlen := hsize e (List.fst_mem_of_mem_zipIdx he)
  have hmul : (i + 1) * size ≤ entries.length * size := Nat.mul_le_mul_right _ hi
  rw [Nat.succ_mul] at hmul
  refine ⟨Nat.le_add_right _ _, ?_⟩
  show off + i * size + e.length ≤ off + entries.length * size
  omega

/-- The copy of a section goes to the bytes of the section. -/
theorem sectionPiece_region {s : Section} {p : Piece UInt8} (h : sectionPiece s = some p) :
    p.off = s.fileRegion.off ∧ p.region.stop ≤ s.fileRegion.stop ∧ s.size ≠ 0 ∧
      s.data.isSome := by
  unfold sectionPiece at h
  split at h
  · cases h
  · rename_i hne
    obtain ⟨d, hd, rfl⟩ := Option.map_eq_some_iff.mp h
    have htype : ¬ s.type = shtNobits := fun ht => hne (.inl ht)
    have hlen : (d.take s.size.toNat).length ≤ s.size.toNat := List.length_take_le _ _
    refine ⟨rfl, ?_, fun hs => hne (.inr hs), by rw [hd]; rfl⟩
    show s.offset.toNat + (d.take s.size.toNat).length ≤ s.offset.toNat + s.fileSize.toNat
    rw [Section.fileSize, if_neg htype]
    omega

theorem shdrs_length (secs : List Section) : (shdrs secs).length = secs.length := by
  have hlen : (List.zipWith Section.shdr (Lib.StringTable.offsets 1 (secs.map (·.name)))
      secs).length = secs.length := by
    rw [List.length_zipWith, Lib.StringTable.offsets_length, List.length_map, Nat.min_self]
  unfold shdrs
  split
  · rename_i h
    rw [← hlen, h]
  · rename_i h
    rw [← hlen, h]
    rfl

theorem mem_ofClass {s : Section} {secs : List Section} (hs : s ∈ secs) :
    s ∈ ofClass b (secClass b s) secs := List.mem_filter.mpr ⟨hs, decide_eq_true rfl⟩

/-- The bytes of a section that is copied are in the file. -/
theorem section_inside (hfit : LayoutFits b) (hnull : NullFree b) {s : Section}
    (hs : s ∈ (layout b).sections.tail) (hsize : s.size ≠ 0) (hdata : s.data.isSome) :
    s.fileRegion.stop ≤ (totalSize b).toNat := by
  have hmem := mem_ofClass (b := b) hs
  cases hc : secClass b s with
  | skip =>
    rw [hc, layout_tail, placeMeta, ofClass_place_ne (by decide), placeAlloc,
      ofClass_place_ne (by decide)] at hmem
    have htype : s.type = shtNull := by
      unfold secClass at hc
      split at hc
      · assumption
      · split at hc
        · cases hc
        · split at hc <;> cases hc
    rcases hnull s (List.mem_filter.mp hmem).1 htype with h | h
    · rw [h] at hdata
      cases hdata
    · exact absurd h hsize
  | fixed =>
    rw [hc] at hmem
    have hkept : s ∈ keptInPlace b := hmem
    rw [keptInPlace_eq] at hkept
    exact Nat.le_trans (kept_below hfit hkept) (fixedEnd_le_total hfit)
  | newAlloc =>
    rw [hc] at hmem
    exact (above hfit (List.mem_append_left _ (List.mem_map_of_mem
      (List.mem_append_left _ hmem)))).2
  | metadata =>
    rw [hc] at hmem
    exact (above hfit (List.mem_append_left _ (List.mem_map_of_mem
      (List.mem_append_right _ hmem)))).2

theorem phdrRegion_inside (hfit : LayoutFits b) :
    (phdrRegion (layout b)).stop ≤ (totalSize b).toNat ∨ (phdrRegion (layout b)).len = 0 := by
  rcases phdrRegion_cases b with ⟨hstay, heq⟩ | hempty | hmoved
  · rw [heq]
    exact .inl (Nat.le_trans (phdr_below hfit hstay) (fixedEnd_le_total hfit))
  · exact .inr hempty
  · refine .inl (above hfit (List.mem_append_right _ (List.mem_append_left _ ?_))).2
    rw [hmoved]
    exact List.mem_singleton_self _

theorem pieces_inside (hfit : LayoutFits b) (hnull : NullFree b) {p : Piece UInt8}
    (hp : p ∈ pieces (layout b)) : p.region.stop ≤ (totalSize b).toNat := by
  rcases List.mem_cons.mp hp with rfl | hp
  · have hlen : (layout b).ehdr.bytes.length = ehdrSize := Ehdr.bytes_length _
    have hbelow := ehdr_below hfit
    have hle := fixedEnd_le_total hfit
    show 0 + (layout b).ehdr.bytes.length ≤ _
    rw [hlen]
    exact Nat.le_trans hbelow hle
  rcases List.mem_append.mp hp with hp | hp
  · rcases List.mem_append.mp hp with hp | hp
    · split at hp
      · obtain ⟨-, hstop⟩ := entryPieces_region (fun e he => by
          obtain ⟨seg, -, rfl⟩ := List.mem_map.mp he
          exact Phdr.bytes_length _) hp
        rw [List.length_map] at hstop
        rcases phdrRegion_inside hfit with hin | hempty
        · exact Nat.le_trans hstop hin
        · -- an empty table has no entries
          have hnil : (layout b).segments = [] := by
            have hzero : (layout b).segments.length * phdrSize = 0 := hempty
            unfold phdrSize at hzero
            exact List.length_eq_zero_iff.mp (by omega)
          rw [hnil] at hp
          cases hp
      · cases hp
    · obtain ⟨s, hs, hpiece⟩ := List.mem_filterMap.mp hp
      obtain ⟨-, hstop, hsize, hdata⟩ := sectionPiece_region hpiece
      exact Nat.le_trans hstop (section_inside hfit hnull hs hsize hdata)
  · obtain ⟨-, hstop⟩ := entryPieces_region (fun e he => by
      obtain ⟨sh, -, rfl⟩ := List.mem_map.mp he
      exact Shdr.bytes_length _) hp
    rw [List.length_map, shdrs_length] at hstop
    exact Nat.le_trans hstop (Nat.le_of_eq (shdrRegion_layout hfit).2)

theorem tidy_of_clear (hfit : LayoutFits b) (hnull : NullFree b) (hclear : Clear b) : Tidy b where
  inside _ hp := pieces_inside hfit hnull hp
  apart := placedRegions_pairwise hfit hclear
  kept _ hr _ hs := placedRegions_apart_kept hfit hclear hr hs

/-- What the layout does not place itself has to be apart already. -/
theorem clear_of_tidy (h : Tidy b) : Clear b where
  phdrs hstay := by
    have hapart := (List.pairwise_cons.mp h.apart).1 _ List.mem_cons_self
    rw [phdrRegion_of_stay hstay] at hapart
    have hpos : 0 < b.segments.length := List.length_pos_iff.mpr hstay.1
    unfold Apart phdrRegion ehdrRegion Region.stop phdrSize at hapart
    dsimp only at hapart
    unfold ehdrSize at hapart ⊢
    omega
  kept s hs := by
    rw [← keptInPlace_eq] at hs
    refine ⟨h.kept _ List.mem_cons_self s hs, fun hstay => ?_⟩
    rw [← phdrRegion_of_stay hstay]
    exact h.kept _ (List.mem_cons_of_mem _ List.mem_cons_self) s hs

/-! ## Builds -/

instance decidablePlaceFits (b : Binary) (c : SecClass) :
    (cur : UInt64) → (secs : List Section) → Decidable (PlaceFits b c cur secs)
  | _, [] => .isTrue trivial
  | cur, s :: ss => by
    unfold PlaceFits AlignFits AddFits
    have := decidablePlaceFits b c (alignUp cur s.al + s.fileSize) ss
    have := decidablePlaceFits b c cur ss
    infer_instance

instance (b : Binary) : Decidable (LayoutFits b) :=
  decidable_of_iff
    ((64 + b.segments.length * phdrSize < 2 ^ 64 ∧
        b.ehdr.phoff.toNat + b.segments.length * phdrSize < 2 ^ 64) ∧
      (∀ s ∈ b.sections.tail, secClass b s = .fixed →
        s.offset.toNat + s.fileSize.toNat < 2 ^ 64) ∧
      ((fixedEnd b).toNat + ((if b.isRel then 8 else pageSize : UInt64).toNat - 1) < 2 ^ 64 ∧
        PlaceFits b .newAlloc (allocStart b) b.sections.tail) ∧
      ((placeAlloc b).2.toNat + ((8 : UInt64).toNat - 1) < 2 ^ 64 ∧
        PlaceFits b .metadata (alignUp (placeAlloc b).2 8) (placeAlloc b).1) ∧
      (phdrsMove b → layoutSegments b ≠ [] →
        (placeMeta b).2.toNat + ((8 : UInt64).toNat - 1) < 2 ^ 64 ∧
          (phdrOff b).toNat + (layoutSegments b).length * phdrSize < 2 ^ 64) ∧
      (metaEnd b).toNat + ((8 : UInt64).toNat - 1) < 2 ^ 64 ∧
        (shdrOff b).toNat + b.sections.length * shdrSize < 2 ^ 64)
    ⟨fun ⟨⟨h₁, h₂⟩, h₃, ⟨h₄, h₅⟩, ⟨h₆, h₇⟩, h₈, h₉, h₁₀⟩ =>
        ⟨h₁, h₂, h₃, h₄, h₅, h₆, h₇, fun h h' => (h₈ h h').1, fun h h' => (h₈ h h').2, h₉, h₁₀⟩,
      fun h => ⟨⟨h.header, h.phoff⟩, h.kept, ⟨h.start, h.alloc⟩, ⟨h.metaStart, h.metadata⟩,
        fun hm hs => ⟨h.phdrStart hm hs, h.phdrEnd hm hs⟩, h.shdrStart, h.shdrEnd⟩⟩

/-- A binary that the interface gives: new or loaded, then changed. -/
inductive Made : Binary → Prop where
  | new (type machine : UInt16) : Made (lielfNew type machine)
  | load {buf : Bytes} {b : Binary} : loadMem buf = .ok (some b) → Made b
  | addSection {b : Binary} (name : Lib.StringTable.CString) (type : UInt32) (flags : UInt64)
      (data : Option (Nat → UInt8)) (size addralign : UInt64) :
      Made b → Made (addSection b name type flags data size addralign)
  | setSectionData {b : Binary} (i : Nat) (data : Option (Nat → UInt8)) (size : UInt64) :
      Made b → Made (setSectionData b i data size)
  | addSegment {b : Binary} (type flags : UInt32) (vaddr filesz memsz align : UInt64) :
      Made b → Made (addSegment b type flags vaddr filesz memsz align)
  | addSymbol {b : Binary} (name : Lib.StringTable.CString) (value size : UInt64) (info : UInt8)
      (shndx : UInt16) (dynamic : Int) :
      Made b → Made (addSymbol b name value size info shndx dynamic)
  | addReloc {b : Binary} (target : Lib.StringTable.CString) (offset : UInt64)
      (sym type : UInt32) (addend : Int64) (dynamic : Int) :
      Made b → Made (addReloc b target offset sym type addend dynamic)
  | removeSection {b b' : Binary} (name : Lib.StringTable.CString) :
      removeSection b name = some b' → Made b → Made b'

/-- The parts of a built file are apart, and every copy stays in the buffer, if no `SHT_NULL`
section has bytes and what stays below `fixed_end` is apart; the latter is needed. -/
theorem build_tidy (hfit : LayoutFits (regenerate b)) :
    (NullFree (regenerate b) ∧ Clear (regenerate b) → Tidy (regenerate b)) ∧
      (Tidy (regenerate b) → Clear (regenerate b)) :=
  ⟨fun h => tidy_of_clear hfit h.1 h.2, clear_of_tidy⟩

/-- A new executable with code and a comment. -/
def sampleExec : Binary :=
  addSection (addSection (lielfNew etExec 62) (literal ['.', 't']) shtProgbits 6
    (some fun i => UInt8.ofNat i) 5 16) (literal ['.', 'c']) shtProgbits 0 none 3 1

theorem build_tidy_sampleExec : LayoutFits (regenerate sampleExec) ∧
    Tidy (regenerate sampleExec) := by
  have hfit : LayoutFits (regenerate sampleExec) := by decide +kernel
  have hnull : NullFree (regenerate sampleExec) := by
    unfold NullFree
    decide +kernel
  have hmove : ¬ PhdrsStay (regenerate sampleExec) := by
    unfold PhdrsStay
    decide +kernel
  have hkept : ofClass (regenerate sampleExec) .fixed (regenerate sampleExec).sections.tail = [] := by
    decide +kernel
  refine ⟨hfit, (build_tidy hfit).1 ⟨hnull, fun h => absurd h hmove, fun s hs => ?_⟩⟩
  rw [hkept] at hs
  cases hs

/-- A new executable with a segment added. -/
def segmentOnly : Binary := addSegment (lielfNew etExec 62) ptLoad 5 0x400000 0x1000 0x1000 0x1000

/-- A new object with 500 bytes in a section of type `SHT_NULL`. -/
def nullBytes : Binary := addSection (lielfNew etRel 62) (literal ['n']) shtNull 0 none 500 1

/-- The program headers of the first file are written over its ELF header; the bytes of the
section in the second go behind the end of the buffer. -/
theorem build_not_tidy :
    (Made segmentOnly ∧ LayoutFits (regenerate segmentOnly) ∧ ¬ Tidy (regenerate segmentOnly)) ∧
      Made nullBytes ∧ LayoutFits (regenerate nullBytes) ∧ ¬ Tidy (regenerate nullBytes) := by
  refine ⟨⟨.addSegment _ _ _ _ _ _ (.new _ _), by decide +kernel, fun h => ?_⟩,
    .addSection _ _ _ _ _ _ (.new _ _), by decide +kernel, fun h => ?_⟩
  · have hapart := (List.pairwise_cons.mp h.apart).1 _ List.mem_cons_self
    revert hapart
    decide +kernel
  · have hinside : ∀ p ∈ pieces (layout (regenerate nullBytes)),
        p.off + p.data.length ≤ (totalSize (regenerate nullBytes)).toNat := h.inside
    revert hinside
    decide +kernel

end Cup.Elf
