/-
  Building twice (`lielf_build` of `include/lielf.h`; its comment calls a rebuild idempotent).

  The tables are as the first build left them (`Regenerated.again`). Where the first build placed
  no ALLOC section of an executable anew, the second one finds the same classes and the same start
  of every region, and gives every section the place it has (`place_again`).

  Binaries (`Rebuildable`): at most 2^32 symbols in either table, and no relocation section with
  the name of a table that the build writes behind the relocations (`Plain`); apart from that
  whatever was built or loaded, of any type.

  Proved:
  * `rebuild_same`: the second file is the first if no ALLOC section of an executable is placed
    anew (`Stays`). Where no offset overflows in either layout (`LayoutFits`) and some section is
    metadata, it is the same only then.
  * `rebuild_not_same`: an executable with new code is built to another file the second time.

  Not covered: the converse where offsets overflow or every section is ALLOC, the second layout
  can then come out the same by chance; and the binaries that `Plain` leaves out, whose relocations
  get a new section the second time.
-/
import Cup.ElfCodec
import Cup.ElfRegenerate

namespace Cup.Elf

open Lib.Image (writeAll)

variable {b b' : Binary} {s s' : Section} {secs : List Section} {c : SecClass}

/-! ## Placing again -/

/-- A section of the class in question has the place and the size it had. -/
structure Again (b b' : Binary) (c : SecClass) (s s' : Section) : Prop where
  class_iff : secClass b' s' = c ↔ secClass b s = c
  same : secClass b s = c →
    s'.offset = s.offset ∧ s'.addr = s.addr ∧ s'.al = s.al ∧ s'.fileSize = s.fileSize

theorem Again.of_placed {s'' : Section} (h : Again b b' .newAlloc s' s'')
    (heq : s' = { s with offset := s'.offset, addr := s'.addr })
    (hkeep : secClass b s ≠ .metadata → s' = s) : Again b b' .newAlloc s s'' := by
  have hclass : secClass b s' = secClass b s := by rw [heq]; rfl
  refine ⟨h.class_iff.trans (by rw [hclass]), fun hs => ?_⟩
  have hsame : s' = s := hkeep (by rw [hs]; decide)
  rw [← hsame]
  exact h.same (hclass.trans hs)

/-- Sections that were placed are placed where they are. -/
theorem place_again (addrOf : UInt64 → UInt64) (cur : UInt64) {secs secs' : List Section}
    (h : List.Forall₂ (Again b b' c) (place b c addrOf cur secs).1 secs') :
    place b' c addrOf cur secs' = (secs', (place b c addrOf cur secs).2) := by
  induction secs generalizing cur secs' with
  | nil =>
    cases h
    rfl
  | cons s ss ih =>
    by_cases hclass : secClass b s = c
    · have hplace : place b c addrOf cur (s :: ss) = _ := if_pos hclass
      rw [hplace] at h ⊢
      cases h with
      | cons hs hss =>
        rename_i s' ss'
        obtain ⟨hoff, haddr, hal, hsize⟩ := hs.same hclass
        have hoff : s'.offset = alignUp cur s.al := hoff
        have haddr : s'.addr = addrOf (alignUp cur s.al) := haddr
        have hal : s'.al = s.al := hal
        have hsize : s'.fileSize = s.fileSize := hsize
        have hplace' : place b' c addrOf cur (s' :: ss') = _ := if_pos (hs.class_iff.mpr hclass)
        have hsame : { s' with offset := alignUp cur s.al, addr := addrOf (alignUp cur s.al) } =
            s' := by rw [← haddr, ← hoff]
        rw [hplace', hal, hsize]
        dsimp only
        rw [ih _ hss, hsame]
    · have hplace : place b c addrOf cur (s :: ss) = _ := if_neg hclass
      rw [hplace] at h ⊢
      cases h with
      | cons hs hss =>
        rename_i s' ss'
        have hplace' : place b' c addrOf cur (s' :: ss') = _ :=
          if_neg fun h => hclass (hs.class_iff.mp h)
        rw [hplace']
        dsimp only
        rw [ih _ hss]

/-- Placing a class leaves the other classes where they are. -/
theorem place_forall₂ (b : Binary) (c : SecClass) (addrOf : UInt64 → UInt64) (cur : UInt64)
    (secs : List Section) : List.Forall₂ (fun s s' =>
      s' = { s with offset := s'.offset, addr := s'.addr } ∧ (secClass b s ≠ c → s' = s)) secs
      (place b c addrOf cur secs).1 := by
  induction secs generalizing cur with
  | nil => exact .nil
  | cons s ss ih =>
    unfold place
    split
    · rename_i hclass
      exact .cons ⟨rfl, fun h => absurd hclass h⟩ (ih _)
    · exact .cons ⟨rfl, fun _ => rfl⟩ (ih _)

theorem foldl_maxEnd_place (hc : c ≠ .fixed) (addrOf : UInt64 → UInt64) (cur e : UInt64)
    (secs : List Section) : (place b c addrOf cur secs).1.foldl (maxEnd b) e =
      secs.foldl (maxEnd b) e := by
  induction secs generalizing cur e with
  | nil => rfl
  | cons s ss ih =>
    unfold place
    split
    · rename_i hclass
      have hnot : secClass b s ≠ .fixed := fun h => hc (hclass.symm.trans h)
      have hskip : ∀ off addr, maxEnd b e { s with offset := off, addr } = e :=
        fun off addr => if_neg fun h => hnot h.1
      have hskip' : maxEnd b e s = e := if_neg fun h => hnot h.1
      dsimp only
      rw [List.foldl_cons, List.foldl_cons, hskip, hskip', ih]
    · dsimp only
      rw [List.foldl_cons, List.foldl_cons, ih]

/-! ## The second layout -/

theorem placed_settle (s : Section) : Placed s (settle s) := ⟨rfl⟩

theorem forall₂_layout (b : Binary) : List.Forall₂ Placed b.sections (layout b).sections := by
  refine List.forall₂_iff_get.mpr ⟨(layout_length b).symm, fun i hi hi' => ?_⟩
  obtain ⟨off, addr, hget⟩ := layout_get (List.getElem?_eq_getElem hi)
  have heq := Option.some.inj ((List.getElem?_eq_getElem hi').symm.trans hget)
  show Placed b.sections[i] (layout b).sections[i]
  rw [heq]
  exact ⟨rfl⟩

theorem map_name_placed {secs' : List Section} (h : List.Forall₂ Placed secs secs') :
    secs'.map (·.name) = secs.map (·.name) := by
  induction h with
  | nil => rfl
  | cons hs _ ih => rw [List.map_cons, List.map_cons, ih, hs.name]

/-- What a section looks like to the second layout: it was placed, and is marked only where the
first layout found it marked. -/
structure Settled (s s' : Section) : Prop where
  eq : s' = { s with
    loadedAlloc := decide (s.type ≠ shtNull ∧ s.flags &&& shfAlloc ≠ 0)
    dirty := s'.dirty }
  dirty : s'.dirty = true → s.dirty = true

/-- The binary that the second layout starts from. -/
structure Second (b q : Binary) : Prop where
  other : q = { layout b with sections := q.sections }
  settled : List.Forall₂ Settled (layout b).sections q.sections

/-- A section that does not change its class: no ALLOC section of an executable is placed anew. -/
def Stable (b : Binary) (s : Section) : Prop := b.isRel = true ∨ secClass b s ≠ .newAlloc

variable {q : Binary}

theorem Second.length (hq : Second b q) : q.sections.length = b.sections.length := by
  rw [← hq.settled.length_eq, layout_length]

theorem Second.names (hq : Second b q) : q.sections.map (·.name) = b.sections.map (·.name) := by
  have hplaced : List.Forall₂ Placed (layout b).sections q.sections :=
    hq.settled.imp fun s s' hs => ⟨by rw [hs.eq]⟩
  rw [map_name_placed hplaced, map_name_placed (forall₂_layout b)]

theorem layoutSegments_of_stable (h : b.isRel = true ∨ anyNewAlloc b = false) :
    layoutSegments b = b.segments := by
  unfold layoutSegments
  rcases h with h | h
  · rw [h]
    rfl
  · rw [h, Bool.and_false]
    rfl

theorem phdrOff_of_segs (h : layoutSegments b = b.segments) :
    phdrOff b = if b.segments = [] then 0 else b.ehdr.phoff := by
  by_cases hnil : b.segments = []
  · have hmove : phdrsMove b = true := by
      unfold phdrsMove
      rw [hnil]
      exact Bool.or_true _
    unfold phdrOff
    rw [hmove, h, if_pos rfl, if_pos hnil, if_pos hnil]
  · have hmove : phdrsMove b = false := by
      unfold phdrsMove
      rw [h]
      simpa using hnil
    unfold phdrOff
    rw [hmove, if_neg hnil]
    rfl

theorem metaEnd_of_segs (h : layoutSegments b = b.segments) : metaEnd b = (placeMeta b).2 := by
  refine if_neg fun ⟨hmove, hne⟩ => ?_
  unfold phdrsMove at hmove
  rw [h] at hmove hne
  simp [hne] at hmove

theorem Second.isRel (hq : Second b q) : q.isRel = b.isRel := by
  rw [hq.other]
  rfl

theorem Second.segments (hq : Second b q) : q.segments = layoutSegments b := by
  rw [hq.other]
  rfl

theorem Second.phoff (hq : Second b q) (hsegs : layoutSegments b = b.segments) :
    q.ehdr.phoff = if b.segments = [] then 0 else b.ehdr.phoff := by
  have hphoff : q.ehdr.phoff = if layoutSegments b = [] then 0 else phdrOff b := by
    rw [hq.other]
    rfl
  rw [hphoff, hsegs, phdrOff_of_segs hsegs]
  split <;> rfl

theorem Second.secClass (hq : Second b q) (hsegs : layoutSegments b = b.segments)
    (hstable : Stable b s) (hs : Settled s s') : secClass q s' = secClass b s := by
  have htype : s'.type = s.type := by rw [hs.eq]
  have hflags : s'.flags = s.flags := by rw [hs.eq]
  have hloaded : s'.loadedAlloc = decide (s.type ≠ shtNull ∧ s.flags &&& shfAlloc ≠ 0) := by
    rw [hs.eq]
  have hclass := hstable
  unfold Stable at hclass
  unfold Elf.secClass at hclass ⊢
  rw [htype, hflags, hq.isRel, hq.segments, hsegs, hloaded]
  by_cases hnull : s.type = shtNull
  · rw [if_pos hnull, if_pos hnull]
  · rw [if_neg hnull] at hclass ⊢
    rw [if_neg hnull]
    by_cases halloc : s.flags &&& shfAlloc = 0
    · rw [if_pos halloc, if_pos halloc]
    · rw [if_neg halloc] at hclass ⊢
      rw [if_neg halloc]
      cases hisrel : b.isRel with
      | true => rfl
      | false =>
        rw [hisrel] at hclass
        have hfixed : (!false && s.loadedAlloc && !s.dirty && !b.segments.isEmpty) = true := by
          rcases hclass with h | h
          · cases h
          · by_contra hnot
            exact h (if_neg hnot)
        have hparts := hfixed
        simp only [Bool.not_false, Bool.true_and, Bool.and_eq_true, Bool.not_eq_true'] at hparts
        have hclean : s'.dirty = false := by
          by_contra hdirty
          have hmarked := hs.dirty (Bool.not_eq_false _ ▸ hdirty)
          rw [hparts.1.2] at hmarked
          cases hmarked
        rw [if_pos hfixed, hclean, decide_eq_true ⟨hnull, halloc⟩, hparts.2]
        rfl

/-- A section in the layout, where it was placed. -/
theorem stable_place {addrOf : UInt64 → UInt64} {cur : UInt64} (h : ∀ s ∈ secs, Stable b s) :
    ∀ s ∈ (place b c addrOf cur secs).1, Stable b s := by
  intro s' hs'
  have hforall := place_forall₂ b c addrOf cur secs
  obtain ⟨i, hi', rfl⟩ := List.mem_iff_getElem.mp hs'
  have hi : i < secs.length := hforall.length_eq.symm ▸ hi'
  obtain ⟨heq, -⟩ := hforall.get hi hi'
  have heq : (place b c addrOf cur secs).1[i] = { secs[i] with
    offset := (place b c addrOf cur secs).1[i].offset
    addr := (place b c addrOf cur secs).1[i].addr } := heq
  have hs : Stable b secs[i] := h _ (List.getElem_mem hi)
  rw [heq]
  exact hs

/-- The placed sections beside those of the second layout. -/
theorem Second.tail (hq : Second b q) (hstable : ∀ s ∈ b.sections.tail, Stable b s) :
    List.Forall₂ (fun s s' => Stable b s ∧ Settled s s') (placeMeta b).1 q.sections.tail := by
  have hplaced : ∀ s ∈ (placeMeta b).1, Stable b s := stable_place (stable_place hstable)
  have htail := List.forall₂_drop 1 hq.settled
  rw [List.drop_one, List.drop_one, layout_tail] at htail
  refine List.forall₂_iff_get.mpr ⟨htail.length_eq, fun i hi hi' => ?_⟩
  exact ⟨hplaced _ (List.get_mem _ _), htail.get hi hi'⟩

section
variable (hq : Second b q) (hstable : ∀ s ∈ b.sections.tail, Stable b s)
  (hsegs : layoutSegments b = b.segments)

include hq hstable hsegs

/-- The placed sections of a class are placed again. -/
theorem again_meta (c : SecClass) :
    List.Forall₂ (Again b q c) (placeMeta b).1 q.sections.tail := by
  refine (hq.tail hstable).imp fun s s' ⟨hstay, hs⟩ => ⟨?_, fun _ => ?_⟩
  · rw [hq.secClass hsegs hstay hs]
  · rw [hs.eq]
    exact ⟨rfl, rfl, rfl, rfl⟩

theorem again_alloc : List.Forall₂ (Again b q .newAlloc) (placeAlloc b).1 q.sections.tail := by
  have hmeta := place_forall₂ b .metadata (fun _ => 0) (alignUp (placeAlloc b).2 8) (placeAlloc b).1
  have hagain := again_meta hq hstable hsegs .newAlloc
  refine List.forall₂_iff_get.mpr ⟨hmeta.length_eq.trans hagain.length_eq, fun i hi hi' => ?_⟩
  have hlt : i < (placeMeta b).1.length := hmeta.length_eq ▸ hi
  obtain ⟨heq, hkeep⟩ := hmeta.get hi hlt
  exact (hagain.get hlt hi').of_placed heq hkeep

/-- Every step of the second layout has the result of the first. -/
theorem second_fixedEnd : fixedEnd q = fixedEnd b := by
  have hheaders : headersEnd q = headersEnd b := by
    unfold headersEnd
    rw [hq.segments, hsegs, hq.phoff hsegs]
    by_cases h : b.segments = []
    · rw [if_pos h, if_pos h]
    · rw [if_neg h, if_neg h, if_neg h]
  have hfold : ∀ {secs secs' : List Section} (e : UInt64),
      List.Forall₂ (fun s s' => Stable b s ∧ Settled s s') secs secs' →
        secs'.foldl (maxEnd q) e = secs.foldl (maxEnd b) e := by
    intro secs secs' e h
    induction h generalizing e with
    | nil => rfl
    | cons hs _ ih =>
      rename_i s s' _ _ _
      have hoff : s'.offset = s.offset := by rw [hs.2.eq]
      have hsize : s'.fileSize = s.fileSize := by
        rw [hs.2.eq]
        rfl
      have hmax : maxEnd q e s' = maxEnd b e s := by
        unfold maxEnd
        rw [hq.secClass hsegs hs.1 hs.2, hoff, hsize]
      rw [List.foldl_cons, List.foldl_cons, hmax, ih]
  unfold fixedEnd
  rw [hheaders, hfold _ (hq.tail hstable)]
  unfold placeMeta placeAlloc
  rw [foldl_maxEnd_place (by decide), foldl_maxEnd_place (by decide)]

theorem second_placeAlloc : placeAlloc q = (q.sections.tail, (placeAlloc b).2) := by
  have hstart : allocStart q = allocStart b := by
    unfold allocStart
    rw [second_fixedEnd hq hstable hsegs, hq.isRel]
  have hvaddr : q.baseVaddr = b.baseVaddr := by
    rw [hq.other]
    rfl
  have hbase : loadBase q = loadBase b := by
    unfold loadBase
    rw [hq.segments, hsegs, hq.isRel, hvaddr]
  unfold placeAlloc
  rw [hstart, hbase, hq.isRel]
  exact place_again _ _ (again_alloc hq hstable hsegs)

theorem second_placeMeta : placeMeta q = (q.sections.tail, (placeMeta b).2) := by
  have halloc := second_placeAlloc hq hstable hsegs
  unfold placeMeta
  rw [halloc]
  exact place_again _ _ (again_meta hq hstable hsegs .metadata)

theorem second_segments : layoutSegments q = q.segments := by
  refine layoutSegments_of_stable ?_
  rw [hq.isRel]
  cases hrel : b.isRel with
  | true => exact .inl rfl
  | false =>
    refine .inr (List.any_eq_false.mpr fun s' hs' => ?_)
    obtain ⟨i, hi', rfl⟩ := List.mem_iff_getElem.mp hs'
    have htail := hq.tail hstable
    have hi : i < (placeMeta b).1.length := htail.length_eq.symm ▸ hi'
    obtain ⟨hstay, hs⟩ := htail.get hi hi'
    have hclass : secClass q q.sections.tail[i] = _ := hq.secClass hsegs hstay hs
    rw [hclass, decide_eq_true_eq]
    rcases hstay with h | h
    · rw [hrel] at h
      cases h
    · exact h

theorem second_phdrOff : phdrOff q = phdrOff b := by
  rw [phdrOff_of_segs (second_segments hq hstable hsegs), phdrOff_of_segs hsegs, hq.segments, hsegs,
    hq.phoff hsegs]
  split <;> rfl

theorem second_shdrOff : shdrOff q = shdrOff b := by
  unfold shdrOff
  rw [metaEnd_of_segs (second_segments hq hstable hsegs), metaEnd_of_segs hsegs,
    second_placeMeta hq hstable hsegs]

theorem second_totalSize : totalSize q = totalSize b := by
  unfold totalSize
  rw [second_shdrOff hq hstable hsegs, hq.length]

/-- The second layout finds everything in its place. -/
theorem second_layout : layout q = q := by
  have hsecs : q.sections.take 1 ++ (placeMeta q).1 = q.sections := by
    rw [second_placeMeta hq hstable hsegs]
    cases q.sections <;> rfl
  have hsegments := second_segments hq hstable hsegs
  have hphoff : (if layoutSegments q = [] then 0 else phdrOff q) = q.ehdr.phoff := by
    rw [hsegments, second_phdrOff hq hstable hsegs, phdrOff_of_segs hsegs, hq.phoff hsegs,
      hq.segments, hsegs]
    split <;> rfl
  have hindex : sectionIndex q dotShstrtab = sectionIndex b dotShstrtab :=
    congrArg (·.getD 0) (getSection_congr hq.names _)
  -- the header is the one that the first layout has made
  have hehdr : q.ehdr = (layout b).ehdr := by rw [hq.other]
  have hphnum : q.ehdr.phnum = UInt16.ofNat q.segments.length := by
    rw [hehdr, hq.segments]
    rfl
  have hshoff : q.ehdr.shoff = shdrOff b := by
    rw [hehdr]
    rfl
  have hshnum : q.ehdr.shnum = UInt16.ofNat b.sections.length := by
    rw [hehdr]
    rfl
  have hshstrndx : q.ehdr.shstrndx = UInt16.ofNat (sectionIndex b dotShstrtab) := by
    rw [hehdr]
    rfl
  unfold layout
  rw [hsecs, hphoff, hsegments, second_shdrOff hq hstable hsegs, hq.length, hindex, ← hphnum,
    ← hshoff, ← hshnum, ← hshstrndx]

end

theorem settled_pieces {secs secs' : List Section} (h : List.Forall₂ Settled secs secs') :
    secs'.filterMap sectionPiece = secs.filterMap sectionPiece := by
  induction h with
  | nil => rfl
  | cons hs _ ih =>
    rename_i s s' _ _ _
    have hsame : sectionPiece s' = sectionPiece s := by
      rw [hs.eq]
      rfl
    rw [List.filterMap_cons, List.filterMap_cons, hsame, ih]

theorem settled_shdrs {secs secs' : List Section} (h : List.Forall₂ Settled secs secs')
    (offsets : List Nat) :
    List.zipWith Section.shdr offsets secs' = List.zipWith Section.shdr offsets secs := by
  induction h generalizing offsets with
  | nil => rfl
  | cons hs _ ih =>
    rename_i s s' _ _ _
    cases offsets with
    | nil => rfl
    | cons off offsets =>
      have hsame : s'.shdr off = s.shdr off := by
        rw [hs.eq]
        rfl
      rw [List.zipWith_cons_cons, List.zipWith_cons_cons, ih, hsame]

/-- The copies do not look at the marks. -/
theorem Second.pieces (hq : Second b q) : pieces q = pieces (layout b) := by
  have hehdr : q.ehdr = (layout b).ehdr := by rw [hq.other]
  have hsegs : q.segments = (layout b).segments := by rw [hq.other]
  have htail := settled_pieces (List.forall₂_drop 1 hq.settled)
  rw [List.drop_one, List.drop_one] at htail
  have hnames : q.sections.map (·.name) = (layout b).sections.map (·.name) := by
    rw [hq.names, map_name_placed (forall₂_layout b)]
  have hshdrs : shdrs q.sections = shdrs (layout b).sections := by
    unfold shdrs
    rw [hnames, settled_shdrs hq.settled]
  unfold Elf.pieces
  rw [hehdr, hsegs, htail, hshdrs]

/-! ## Two builds -/

/-- 32 bits can count the symbols, and no relocation section has the name of a table that is
written behind them. -/
structure Rebuildable (b : Binary) : Prop where
  symbols : b.symbols.length ≤ 2 ^ 32
  dynsymbols : b.dynsymbols.length ≤ 2 ^ 32
  plain : Plain b.sections

/-- No ALLOC section of an executable is placed anew. -/
def Stays (b : Binary) : Prop := b.isRel = true ∨ anyNewAlloc (regenerate b) = false

theorem isRel_regenerate (b : Binary) : (regenerate b).isRel = b.isRel := by
  have hsort : ∀ (b : Binary) (d : Bool), (sortSymbolsLocalFirst b d).ehdr = b.ehdr := by
    intro b d
    by_cases h : (b.syms d).length ≤ 1
    · rw [sort_of_length_le h]
    · rw [sort_of_lt (Nat.lt_of_not_le h)]
      cases d <;> rfl
  have hehdr : (regenerate b).ehdr = b.ehdr := by
    rw [(regenerate_other b).ehdr]
    exact (hsort _ true).trans (hsort b false)
  unfold Binary.isRel
  rw [hehdr]

/-- A binary after its build. -/
def finished (b : Binary) : Binary := { layout b with sections := (layout b).sections.map settle }

theorem cleaner_finished (b : Binary) : List.Forall₂ Cleaner b.sections (finished b).sections := by
  refine List.forall₂_map_right_iff.mpr ((forall₂_layout b).imp fun s s' h => ?_)
  exact ⟨h.trans (placed_settle s'), nofun⟩

/-- The second build starts from the binary the first one left. -/
theorem second_finished {r : Binary} (hr : Regenerated r) : Second r (regenerate (finished r)) := by
  have hsyms : ∀ d, (finished r).syms d = r.syms d := settle_syms r _
  obtain ⟨hother, hcleaner, hposition⟩ := hr.elsewhere hsyms rfl rfl (cleaner_finished r)
  generalize regenerate (finished r) = q at hother hcleaner hposition
  refine ⟨hother, List.forall₂_iff_get.mpr ⟨?_, fun i hi hi' => ?_⟩⟩
  · rw [layout_length, hcleaner.length_eq]
  · -- a section, where the first build has put it, and what the second one has made of it
    have hlt : i < r.sections.length := by rwa [layout_length] at hi
    obtain ⟨off, addr, hplaced⟩ := layout_get (List.getElem?_eq_getElem hlt)
    have hmap : (q.sections.map Section.position)[i]? =
        (((layout r).sections.map settle).map Section.position)[i]? := congrArg (·[i]?) hposition
    rw [List.getElem?_map, List.getElem?_map, List.getElem?_map, hplaced,
      List.getElem?_eq_getElem hi'] at hmap
    have hsame : Cleaner r.sections[i] q.sections[i] := hcleaner.get hlt hi'
    have heq := Option.some.inj ((List.getElem?_eq_getElem hi).symm.trans hplaced)
    show Settled (layout r).sections[i] q.sections[i]
    rw [heq]
    generalize r.sections[i] = s, q.sections[i] = x at hsame hmap
    obtain ⟨hoff, haddr, hloaded⟩ : x.offset = off ∧ x.addr = addr ∧ x.loadedAlloc =
        decide (s.type ≠ shtNull ∧ s.flags &&& shfAlloc ≠ 0) := by
      simpa [Section.position, settle] using hmap
    refine ⟨?_, hsame.dirty⟩
    dsimp only
    rw [← hoff, ← haddr, ← hloaded]
    exact hsame.placed.eq

variable {r : Binary} {file : Bytes} {out out' : Binary}

/-- A build that places nothing anew gives the same file again. -/
theorem build_finished (hr : Regenerated r) (hstays : r.isRel = true ∨ anyNewAlloc r = false)
    (hfile : writeAll (List.replicate (totalSize r).toNat 0) (pieces (layout r)) = some file) :
    ∃ out', lielfBuild (finished r) = some (file, out') := by
  have hsegs := layoutSegments_of_stable hstays
  have hstable : ∀ s ∈ r.sections.tail, Stable r s := by
    intro s hs
    refine hstays.imp_right fun hnone hclass => ?_
    exact List.any_eq_false.mp hnone s hs (decide_eq_true hclass)
  have hq := second_finished hr
  unfold lielfBuild
  dsimp only
  generalize regenerate (finished r) = q at hq ⊢
  rw [second_totalSize hq hstable hsegs, second_layout hq hstable hsegs, hq.pieces, hfile]
  exact ⟨_, rfl⟩

/-- Program headers that were moved are behind every metadata section. -/
theorem metadata_below_phdrs (hfit : LayoutFits r) (hmove : movedPhdrs r = [phdrRegion (layout r)])
    {s : Section} (hs : s ∈ ofClass r .metadata (layout r).sections.tail) :
    s.offset.toNat ≤ (phdrRegion (layout r)).off := by
  have hchain := chain_high hfit
  rw [hmove] at hchain
  obtain ⟨mid, hnew, hrest⟩ := hchain.split
  have hmem : s.fileRegion ∈ (newlyPlaced r).map Section.fileRegion :=
    List.mem_map_of_mem (List.mem_append_right _ hs)
  exact Nat.le_trans (Nat.le_trans s.fileRegion.off_le_stop (hnew.mem hmem).2) hrest.1

/-- The next layout places metadata behind the program headers. -/
theorem metadata_above_phdrs {q : Binary} (hfit : LayoutFits q) (hsegs : q.segments ≠ [])
    {s : Section} (hs : s ∈ ofClass q .metadata (layout q).sections.tail) :
    (phdrRegion q).stop ≤ s.offset.toNat := by
  have hmem : s.fileRegion ∈ (newlyPlaced q).map Section.fileRegion :=
    List.mem_map_of_mem (List.mem_append_right _ hs)
  have habove := (above hfit (List.mem_append_left _ hmem)).1
  exact Nat.le_trans (Nat.le_trans ((le_headersEnd hfit).2 hsegs) headersEnd_le) habove

theorem secClass_metadata (b b' : Binary) (htype : s'.type = s.type) (hflags : s'.flags = s.flags) :
    secClass b' s' = .metadata ↔ secClass b s = .metadata := by
  unfold secClass
  rw [htype, hflags]
  split
  · exact Iff.rfl
  · split
    · exact Iff.rfl
    · constructor
      · intro h
        split at h <;> cases h
      · intro h
        split at h <;> cases h

/-- The bytes of a section header say where the section is. -/
theorem offset_of_shdr {n : Nat} (h : (s.shdr n).bytes = (s'.shdr n).bytes) :
    s.offset = s'.offset := by
  have hshdr := congrArg Shdr.ofBytes h
  rw [Shdr.ofBytes_bytes, Shdr.ofBytes_bytes] at hshdr
  exact congrArg Shdr.offset hshdr

/-- The segment of a new ALLOC region makes the program headers move. -/
theorem segment_added (h : ¬ (r.isRel = true ∨ anyNewAlloc r = false)) :
    layoutSegments r ≠ [] ∧ phdrsMove r = true := by
  obtain ⟨hrel, hnew⟩ := not_or.mp h
  have hrel : r.isRel = false := Bool.not_eq_true _ ▸ hrel
  have hnew : anyNewAlloc r = true := Bool.not_eq_false _ ▸ hnew
  have hcond : (!r.isRel && anyNewAlloc r) = true := by
    rw [hrel, hnew]
    rfl
  have hsegs : layoutSegments r = r.segments ++ _ := if_pos hcond
  refine ⟨fun hnil => ?_, ?_⟩
  · rw [hsegs] at hnil
    exact List.cons_ne_nil _ _ (List.append_eq_nil_iff.mp hnil).2
  · unfold phdrsMove
    rw [hsegs]
    simp

/-- Section headers at one place in files of one size start at the same offset. -/
theorem shdrOff_of_length {q : Binary} (hfit : LayoutFits r) (hfit' : LayoutFits q)
    (hlen : q.sections.length = r.sections.length)
    (htotal : (totalSize q).toNat = (totalSize r).toNat) :
    (shdrOff q).toNat = (shdrOff r).toNat := by
  obtain ⟨hoff, hstop⟩ := shdrRegion_layout hfit
  obtain ⟨hoff', hstop'⟩ := shdrRegion_layout hfit'
  have hregion : (shdrRegion (layout r)).off + (layout r).sections.length * shdrSize =
      (totalSize r).toNat := hstop
  have hregion' : (shdrRegion (layout q)).off + (layout q).sections.length * shdrSize =
      (totalSize q).toNat := hstop'
  rw [hoff, layout_length] at hregion
  rw [hoff', layout_length, hlen, htotal] at hregion'
  omega

/-- Program headers that were moved make the next build place the metadata behind them. -/
theorem file_moves {q : Binary} (hq : Second r q) (hfit : LayoutFits r) (hfit' : LayoutFits q)
    (hmove : movedPhdrs r = [phdrRegion (layout r)]) (hsegs : layoutSegments r ≠ [])
    (hmeta : ∃ s ∈ r.sections.tail, secClass r s = .metadata)
    (hfile : writeAll (List.replicate (totalSize r).toNat 0) (pieces (layout r)) = some file)
    (hfile' : writeAll (List.replicate (totalSize q).toNat 0) (pieces (layout q)) = some file) :
    False := by
  -- a metadata section, and where the two layouts put it
  obtain ⟨s, hs, hclass⟩ := hmeta
  obtain ⟨k, hk⟩ := List.mem_iff_getElem?.mp hs
  rw [List.getElem?_tail] at hk
  obtain ⟨off, addr, hm⟩ := layout_get hk
  have hmclass : secClass r { s with offset := off, addr } = .metadata := hclass
  generalize { s with offset := off, addr } = m at hm hmclass
  obtain ⟨hlt, hget⟩ := List.getElem?_eq_some_iff.mp hm
  have hlt' : k + 1 < q.sections.length := hq.settled.length_eq ▸ hlt
  have hsettled : Settled (layout r).sections[k + 1] q.sections[k + 1] := hq.settled.get hlt hlt'
  rw [hget] at hsettled
  obtain ⟨off', addr', hy⟩ := layout_get (List.getElem?_eq_getElem hlt')
  have hyclass : secClass q { q.sections[k + 1] with offset := off', addr := addr' } = .metadata :=
    (secClass_metadata r q (by rw [hsettled.eq]) (by rw [hsettled.eq])).mpr hmclass
  generalize { q.sections[k + 1] with offset := off', addr := addr' } = y at hy hyclass
  have hbelow := metadata_below_phdrs hfit hmove (List.mem_filter.mpr
    ⟨List.mem_of_getElem? (List.getElem?_tail.trans hm), decide_eq_true hmclass⟩)
  have hphoff : q.ehdr.phoff = (layout r).ehdr.phoff := by rw [hq.other]
  have habove := metadata_above_phdrs hfit' (hq.segments ▸ hsegs) (List.mem_filter.mpr
    ⟨List.mem_of_getElem? (List.getElem?_tail.trans hy), decide_eq_true hyclass⟩)
  have hphdrs : (phdrRegion (layout r)).off < (phdrRegion q).stop := by
    have hpos : 0 < q.segments.length := List.length_pos_iff.mpr (hq.segments ▸ hsegs)
    show (layout r).ehdr.phoff.toNat < q.ehdr.phoff.toNat + q.segments.length * phdrSize
    rw [hphoff]
    unfold phdrSize
    omega
  -- the header of the section is at one place in both files
  have hnames : (layout q).sections.map (·.name) = (layout r).sections.map (·.name) := by
    rw [map_name_placed (forall₂_layout q), hq.names, map_name_placed (forall₂_layout r)]
  have hidx : k + 1 < (Lib.StringTable.offsets 1 ((layout r).sections.map (·.name))).length := by
    rw [Lib.StringTable.offsets_length, List.length_map]
    exact hlt
  have hread := read_shdr hfile (Nat.succ_pos k) hm (List.getElem?_eq_getElem hidx)
  have hread' := read_shdr hfile' (Nat.succ_pos k) hy (by
    rw [hnames]
    exact List.getElem?_eq_getElem hidx)
  have htotal : (totalSize q).toNat = (totalSize r).toNat := by
    have hlen := Lib.Image.writeAll_length hfile
    have hlen' := Lib.Image.writeAll_length hfile'
    rw [List.length_replicate] at hlen hlen'
    exact hlen'.symm.trans hlen
  rw [shdrOff_of_length hfit hfit' hq.length htotal, hread] at hread'
  have hoffset := offset_of_shdr (Option.some.inj hread')
  rw [hoffset] at hbelow
  omega

/-- A second build gives the same file if no ALLOC section of an executable is placed anew; the
condition is needed as soon as the layouts fit and there is a metadata section. -/
theorem rebuild_same (h : Rebuildable b) (hbuild : lielfBuild b = some (file, out)) :
    (Stays b → ∃ out', lielfBuild out = some (file, out')) ∧
      (LayoutFits (regenerate b) → LayoutFits (regenerate out) →
        (∃ s ∈ (regenerate b).sections.tail, secClass (regenerate b) s = .metadata) →
        (∃ out', lielfBuild out = some (file, out')) → Stays b) := by
  have hr := regenerated h.symbols h.dynsymbols h.plain
  have hout : out = finished (regenerate b) := lielfBuild_eq_some hbuild
  have hrel := isRel_regenerate b
  unfold Stays
  unfold lielfBuild at hbuild
  dsimp only at hbuild
  rw [← hrel]
  generalize regenerate b = r at hr hout hbuild
  obtain ⟨f, hfile, heq⟩ := Option.map_eq_some_iff.mp hbuild
  obtain rfl : f = file := (Prod.mk.inj heq).1
  subst hout
  refine ⟨fun hstays => build_finished hr hstays hfile,
    fun hfit hfit' hmeta hsame => ?_⟩
  obtain ⟨out', hsame⟩ := hsame
  have hq := second_finished hr
  unfold lielfBuild at hsame
  dsimp only at hsame
  generalize regenerate (finished r) = q at hq hfit' hsame
  obtain ⟨f', hfile', heq'⟩ := Option.map_eq_some_iff.mp hsame
  obtain rfl : f' = f := (Prod.mk.inj heq').1
  by_contra hnot
  obtain ⟨hsegs, hmove⟩ := segment_added hnot
  exact file_moves hq hfit hfit' (if_pos ⟨hmove, hsegs⟩) hsegs hmeta hfile hfile'

/-- The length of a file is the size its layout has. -/
theorem build_length (h : lielfBuild b = some (file, out)) :
    file.length = (totalSize (regenerate b)).toNat := by
  unfold lielfBuild at h
  dsimp only at h
  generalize regenerate b = r at h ⊢
  obtain ⟨f, hfile, heq⟩ := Option.map_eq_some_iff.mp h
  obtain rfl : f = file := (Prod.mk.inj heq).1
  rw [Lib.Image.writeAll_length hfile, List.length_replicate]

/-- A build whose copies are all inside the buffer gives a file. -/
theorem exists_build (h : ∀ p ∈ pieces (layout (regenerate b)),
    p.off + p.data.length ≤ (totalSize (regenerate b)).toNat) :
    ∃ file out, lielfBuild b = some (file, out) := by
  unfold lielfBuild
  dsimp only
  generalize regenerate b = r at h ⊢
  have hfile : ∃ file, writeAll (List.replicate (totalSize r).toNat 0) (pieces (layout r)) =
      some file := by
    refine Lib.Image.exists_writeAll fun p hp => ?_
    rw [List.length_replicate]
    exact h p hp
  obtain ⟨file, hfile⟩ := hfile
  rw [hfile]
  exact ⟨file, _, rfl⟩

/-- An executable as a load gives it: its code is at the place the file had for it. -/
def loadedExec : Binary :=
  { addSegment (lielfNew etExec 62) ptLoad 5 0x400000 133 133 0x1000 with
    ehdr := { (lielfNew etExec 62).ehdr with phoff := 64 }
    sections := [.zero .empty,
      { newSection (literal ['t']) shtProgbits 6 (some fun i => UInt8.ofNat i) 5 16 with
        offset := 128, addr := 0x400080, loadedAlloc := true, dirty := false }] }

/-- An object, and an executable whose code stays, are built the same a second time. -/
theorem rebuild_same_samples : (∃ file out out', lielfBuild sampleRemoval = some (file, out) ∧
      lielfBuild out = some (file, out')) ∧
    loadedExec.isRel = false ∧ ∃ file out out', lielfBuild loadedExec = some (file, out) ∧
      lielfBuild out = some (file, out') := by
  have hobject : Rebuildable sampleRemoval :=
    ⟨by decide +kernel, by decide +kernel, by unfold Plain; decide +kernel⟩
  have hexec : Rebuildable loadedExec :=
    ⟨by decide +kernel, by decide +kernel, by unfold Plain; decide +kernel⟩
  have hnone : anyNewAlloc (regenerate loadedExec) = false := by decide +kernel
  obtain ⟨file, out, hbuild⟩ := exists_build (b := sampleRemoval) (by decide +kernel)
  obtain ⟨out', hagain⟩ := (rebuild_same hobject hbuild).1 (.inl (by decide))
  obtain ⟨file₂, out₂, hbuild₂⟩ := exists_build (b := loadedExec) (by decide +kernel)
  obtain ⟨out₂', hagain₂⟩ := (rebuild_same hexec hbuild₂).1 (.inr hnone)
  exact ⟨⟨file, out, out', hbuild, hagain⟩, by decide +kernel, file₂, out₂, out₂', hbuild₂, hagain₂⟩

/-- An executable with code gets a segment, and is longer the second time. -/
theorem rebuild_not_same : Made sampleExec ∧ ∃ file out, lielfBuild sampleExec = some (file, out) ∧
    ¬ ∃ out', lielfBuild out = some (file, out') := by
  obtain ⟨file, out, hbuild⟩ := exists_build (b := sampleExec) (by decide +kernel)
  refine ⟨.addSection _ _ _ _ _ _ (.addSection _ _ _ _ _ _ (.new _ _)), file, out, hbuild,
    fun ⟨out', hagain⟩ => ?_⟩
  have hout : out = finished (regenerate sampleExec) := lielfBuild_eq_some hbuild
  have hsize : totalSize (regenerate (finished (regenerate sampleExec))) ≠
      totalSize (regenerate sampleExec) := by
    decide +kernel
  have hlen := (build_length hagain).symm.trans (build_length hbuild)
  rw [hout] at hlen
  exact hsize (UInt64.toNat_inj.mp hlen)

end Cup.Elf
