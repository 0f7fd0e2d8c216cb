/-
  Room for the layout of an object (`lielf_build` of `include/lielf.h`): when no offset of its
  file overflows.

  Every section takes its bytes and at most one less than its alignment in front of them, so the
  layout ends below the sum of these numbers (`layoutFits_of_room`). Nothing bounds an alignment:
  two of 2^63 bytes let the offsets start again from 0.

  Proved:
  * `object_roundTrips`: an object whose tables fit is read back from its file if no offset of
    the layout overflows; so it is with sizes below 2^32 and alignments up to 2^47.
  * `not_roundTrips_wideObject`: it is not with two alignments of 2^63.
-/
import Cup.ElfRoundTrip

namespace Cup.Elf

variable {b : Binary} {c : SecClass} {s : Section} {secs : List Section}

/-! ## The space of sections -/

/-- What sections take in a file, at most. -/
def room : List Section → Nat
  | [] => 0
  | s :: ss => s.al.toNat - 1 + s.fileSize.toNat + room ss

theorem room_cons (s : Section) (ss : List Section) :
    room (s :: ss) = s.al.toNat - 1 + s.fileSize.toNat + room ss := rfl

theorem ofClass_cons_of_eq (hc : secClass b s = c) (ss : List Section) :
    ofClass b c (s :: ss) = s :: ofClass b c ss := List.filter_cons_of_pos (decide_eq_true hc)

theorem ofClass_cons_of_ne (hc : secClass b s ≠ c) (ss : List Section) :
    ofClass b c (s :: ss) = ofClass b c ss := List.filter_cons_of_neg (by simpa using hc)

theorem alignUp_le {v a : UInt64} (h : AlignFits v a) :
    (alignUp v a).toNat ≤ v.toNat + (a.toNat - 1) := by
  unfold alignUp
  split
  · exact Nat.le_add_right _ _
  · rename_i ha
    have hone : 1 ≤ a := UInt64.le_of_lt (UInt64.not_le.mp ha)
    have hsub : (a - 1).toNat = a.toNat - 1 := by
      rw [UInt64.toNat_sub_of_le _ _ hone, UInt64.toNat_one]
    have hadd : (v + (a - 1)).toNat = v.toNat + (a.toNat - 1) := by
      rw [UInt64.toNat_add, hsub, Nat.mod_eq_of_lt h]
    rw [UInt64.toNat_and, ← hadd]
    exact Nat.and_le_left

theorem placeFits_of_room (addrOf : UInt64 → UInt64) (cur : UInt64)
    (h : cur.toNat + room (ofClass b c secs) < 2 ^ 64) :
    PlaceFits b c cur secs ∧
      (place b c addrOf cur secs).2.toNat ≤ cur.toNat + room (ofClass b c secs) := by
  induction secs generalizing cur with
  | nil => exact ⟨trivial, Nat.le_add_right _ _⟩
  | cons s ss ih =>
    unfold PlaceFits place
    by_cases hc : secClass b s = c
    · rw [ofClass_cons_of_eq hc, room_cons] at h ⊢
      have halign : AlignFits cur s.al := by
        unfold AlignFits
        omega
      have hup := alignUp_le halign
      have hadd : AddFits (alignUp cur s.al) s.fileSize := by
        unfold AddFits
        omega
      have hend := hadd.toNat
      obtain ⟨hrest, hle⟩ := ih (alignUp cur s.al + s.fileSize) (by omega)
      rw [if_pos hc, if_pos hc]
      exact ⟨⟨halign, hadd, hrest⟩, by dsimp only; omega⟩
    · rw [ofClass_cons_of_ne hc] at h ⊢
      rw [if_neg hc, if_neg hc]
      exact ih cur h

/-- Two classes share the space. -/
theorem room_ofClass_add (b : Binary) {c c' : SecClass} (hne : c ≠ c') (secs : List Section) :
    room (ofClass b c secs) + room (ofClass b c' secs) ≤ room secs := by
  induction secs with
  | nil => exact Nat.le_refl _
  | cons s ss ih =>
    by_cases hc : secClass b s = c
    · rw [ofClass_cons_of_eq hc, ofClass_cons_of_ne fun hc' => hne (hc.symm.trans hc'), room_cons,
        room_cons]
      omega
    · rw [ofClass_cons_of_ne hc, room_cons]
      by_cases hc' : secClass b s = c'
      · rw [ofClass_cons_of_eq hc', room_cons]
        omega
      · rw [ofClass_cons_of_ne hc']
        omega

/-- The layout of an object overflows nothing if there is room for its sections. -/
theorem layoutFits_of_room (hrel : b.isRel = true) (hsegs : b.segments = [])
    (hroom : 128 + room b.sections.tail + b.sections.length * shdrSize < 2 ^ 64) :
    LayoutFits b := by
  have hhead : headersEnd b = 64 := if_pos hsegs
  have hfixed : ∀ s : Section, secClass b s ≠ .fixed := by
    intro s
    unfold secClass
    rw [hrel]
    repeat' split
    all_goals simp_all
  have hend : fixedEnd b = 64 := by
    have hkeep : ∀ e (s : Section), maxEnd b e s = e := fun e s => if_neg fun h => hfixed s h.1
    unfold fixedEnd
    rw [hhead]
    induction b.sections.tail with
    | nil => rfl
    | cons s ss ih => rwa [List.foldl_cons, hkeep]
  have hlay : layoutSegments b = [] := by
    unfold layoutSegments
    rw [hrel, hsegs]
    rfl
  have hstart : allocStart b = 64 := by
    unfold allocStart
    rw [hend, hrel]
    decide
  have hne : SecClass.newAlloc ≠ SecClass.metadata := by decide
  have hsplit := room_ofClass_add b hne b.sections.tail
  have hclass : ofClass b .metadata (placeAlloc b).1 = ofClass b .metadata b.sections.tail :=
    ofClass_place_ne (by decide) _ _
  have h8 : (8 : UInt64).toNat = 8 := rfl
  have h64 : (64 : UInt64).toNat = 64 := rfl
  have hallocRoom : (allocStart b).toNat + room (ofClass b .newAlloc b.sections.tail) < 2 ^ 64 := by
    rw [hstart]
    omega
  obtain ⟨halloc, hallocEnd⟩ := placeFits_of_room
    (fun off => if b.isRel then 0 else loadBase b + off) (allocStart b) hallocRoom
  rw [hstart] at hallocEnd
  have halign8 : ∀ {v : UInt64}, v.toNat + 7 < 2 ^ 64 → AlignFits v 8 := fun h => h
  have hmetaStart : AlignFits (placeAlloc b).2 8 := halign8 (by unfold placeAlloc; rw [hstart]; omega)
  have hmeta8 := alignUp_le hmetaStart
  have hallocLe : (placeAlloc b).2.toNat ≤ 64 + room (ofClass b .newAlloc b.sections.tail) := by
    unfold placeAlloc
    rw [hstart]
    exact hallocEnd
  have hmetaRoom : (alignUp (placeAlloc b).2 8).toNat +
      room (ofClass b .metadata (placeAlloc b).1) < 2 ^ 64 := by
    rw [hclass]
    omega
  obtain ⟨hmetadata, hmetaEnd⟩ := placeFits_of_room (fun _ => 0) (alignUp (placeAlloc b).2 8)
    hmetaRoom
  rw [hclass] at hmetaEnd
  have hmetaLe : (metaEnd b).toNat ≤ 71 + room b.sections.tail := by
    unfold metaEnd
    rw [if_neg fun h => h.2 hlay]
    unfold placeMeta
    omega
  have hshdrStart : AlignFits (metaEnd b) 8 := halign8 (by omega)
  have hshdr := alignUp_le hshdrStart
  refine ⟨by rw [hsegs]; decide, ?_, fun s _ hs => absurd hs (hfixed s), ?_, halloc, hmetaStart,
    hmetadata, fun _ h => absurd hlay h, fun _ h => absurd hlay h, hshdrStart, ?_⟩
  · have hlt := b.ehdr.phoff.toNat_lt
    rw [hsegs]
    exact hlt
  · rw [hend, hrel]
    exact halign8 (by decide)
  · unfold shdrOff
    omega

/-! ## The sections of an object -/

/-- The size of a section is below 2^32, and it leaves room for 2^16 like it. -/
structure Moderate (s : Section) : Prop where
  size : s.size.toNat < 2 ^ 32
  align : s.addralign.toNat ≤ 2 ^ 47

instance : Decidable (Moderate s) :=
  decidable_of_iff (s.size.toNat < 2 ^ 32 ∧ s.addralign.toNat ≤ 2 ^ 47)
    ⟨fun h => ⟨h.1, h.2⟩, fun h => ⟨h.size, h.align⟩⟩

theorem Moderate.room_le (h : Moderate s) :
    s.al.toNat - 1 + s.fileSize.toNat ≤ 2 ^ 47 + 2 ^ 32 := by
  obtain ⟨hsize, halign⟩ := h
  have hal : s.al.toNat ≤ 2 ^ 47 := by
    unfold Section.al
    split
    · exact halign
    · decide
  have hfile : s.fileSize.toNat ≤ s.size.toNat := by
    unfold Section.fileSize
    split
    · exact Nat.zero_le _
    · exact Nat.le_refl _
  omega

theorem room_le (h : ∀ s ∈ secs, Moderate s) : room secs ≤ secs.length * (2 ^ 47 + 2 ^ 32) := by
  induction secs with
  | nil => exact Nat.zero_le _
  | cons s ss ih =>
    have hs := (h s List.mem_cons_self).room_le
    have hss := ih fun t ht => h t (List.mem_cons_of_mem _ ht)
    rw [room_cons, List.length_cons]
    omega

theorem Written.moderate {type : UInt32} {buf : Bytes} (h : Written type buf s)
    (hlen : buf.length < 2 ^ 32) (halign : s.addralign.toNat ≤ 2 ^ 47) : Moderate s where
  size := by
    rw [h.size, UInt64.toNat_ofNat_of_lt' (hlen.trans (by decide))]
    exact hlen
  align := halign

theorem resolveLink_addralign (w : Binary) (s : Section) :
    (resolveLink w s).addralign = s.addralign := by
  rw [(relinked_resolveLink w s).eq]

/-- The tables are moderate if their bytes fit. -/
theorem ObjectSection.moderate (h : IsObject b) (hfit : TablesFit b)
    (hadded : ∀ s ∈ b.sections, Moderate s) (hs : ObjectSection b s) : Moderate s := by
  cases hs with
  | added hs => exact hadded s (List.mem_of_mem_tail hs)
  | symtab hlen =>
    refine ((symtabSection_written hlen).resolveLink (withTables b)).moderate ?_ ?_
    · rw [symtab_length h hfit]
      exact hfit.symbols
    · have halign : (symtabSection (sorted b).symbols).addralign = 8 := by
        have hupdate : symtabSection (sorted b).symbols = _ := if_neg (Nat.not_le_of_lt hlen)
        rw [hupdate, maybeUpdateData_addralign]
        rfl
      rw [resolveLink_addralign, halign]
      decide
  | strtab hlen =>
    refine (strtabSection_written hlen).moderate ?_ ?_
    · rw [names_length h hfit]
      exact hfit.names
    · have halign : (strtabSection (sorted b).symbols).addralign = 1 := by
        have hupdate : strtabSection (sorted b).symbols = _ := if_neg (Nat.not_le_of_lt hlen)
        rw [hupdate, maybeUpdateData_addralign]
        rfl
      rw [halign]
      decide
  | @rela t ht =>
    have hdyn := fun r hr => ((sorted_object h hfit.syms_le).reloc h (r := r) hr).1
    refine ((relaSection_written hdyn ht).resolveLink (withTables b)).moderate ?_ ?_
    · rw [rela_length h hfit]
      exact hfit.relocs t
    · have halign : (relaSection (sorted b).relocs t).addralign = 8 :=
        maybeUpdateData_addralign _ _
      rw [resolveLink_addralign, halign]
      decide
  | names =>
    refine (namesSection_written _).moderate ?_ ?_
    · rw [shstrtab_names h hfit]
      exact hfit.sectionNames
    · have halign : (namesSection (shstrtabNames (tabled (sorted b) b.sections))).addralign = 1 :=
        maybeUpdateData_addralign _ _
      rw [halign]
      decide

theorem layoutFits_of_moderate (h : IsObject b) (hfit : TablesFit b)
    (hadded : ∀ s ∈ b.sections, Moderate s) : LayoutFits (regenerate b) := by
  have hfile := object_file h hfit
  have hcount := hfit.sections
  have htail := room_le fun s hs => (objectSection h hfit.syms_le hs).moderate h hfit hadded
  refine layoutFits_of_room hfile.rel hfile.segments ?_
  generalize regenerate b = r at hcount htail ⊢
  rw [List.length_tail] at htail
  unfold shdrSize
  omega

/-! ## The round trip -/

/-- An object is read back from its file if no offset of the layout overflows, as none does with
moderate sections. -/
theorem object_roundTrips (h : Assembled b) (htables : TablesFit b) :
    (LayoutFits (regenerate b) → RoundTrips b) ∧
      ((∀ s ∈ b.sections, Moderate s) → LayoutFits (regenerate b)) :=
  ⟨(IsObject.of_assembled h).roundTrips htables,
    layoutFits_of_moderate (IsObject.of_assembled h) htables⟩

theorem object_roundTrips_sampleLoaded : RoundTrips sampleLoaded := by
  obtain ⟨hround, hfits⟩ := object_roundTrips assembled_sampleLoaded tablesFit_sampleLoaded
  exact hround (hfits (by decide +kernel))

/-- Two sections of one byte, each to start at a multiple of 2^63. -/
def wideObject : Binary :=
  addSection (addSection (lielfNew etRel 62) (literal ['a']) shtProgbits 0 (some fun _ => 1) 1
    0x8000000000000000) (literal ['b']) shtProgbits 0 (some fun _ => 2) 1 0x8000000000000000

/-- The offset of the second starts again from 0, and the file is too short for the first. -/
theorem not_roundTrips_wideObject : Assembled wideObject ∧ TablesFit wideObject ∧
    (∀ s ∈ wideObject.sections, s.size.toNat < 2 ^ 32) ∧ ¬ RoundTrips wideObject := by
  have hnone : lielfBuild wideObject = none := by decide +kernel
  refine ⟨?_, ⟨by decide +kernel, by decide +kernel, by decide +kernel, fun target => ?_,
    by decide +kernel⟩, by decide +kernel, fun h => ?_⟩
  · exact .addSection _ _ _ _ _ _ (.inl rfl) (by decide) (by decide) (by decide) <|
      .addSection _ _ _ _ _ _ (.inl rfl) (by decide) (by decide) (by decide) <| .new _
  · have hnil : wideObject.relocs = [] := rfl
    rw [hnil, List.filter_nil]
    decide
  · obtain ⟨file, out, b', hbuild, -⟩ := h
    rw [hnone] at hbuild
    cases hbuild

end Cup.Elf
