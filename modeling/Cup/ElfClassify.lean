/-
  The classification of the sections of a loaded file (`lielf_load_mem` of `include/lielf.h`).

  Each section gets its kind from its type alone, whatever the order of the sections, as long as
  symbol tables link to string tables (`classify_get`): then a section that is marked as the
  string table of another one is of a type that the loop itself passes over.
-/
import Cup.ElfBounds

namespace Cup.Elf

/-! ## Kinds by type -/

/-- A relocation section with its target and the table of its symbols. -/
def aimed (secs : List Section) (s : Section) : Section :=
  { s with
    kind := .rela
    relaTarget := (secs[s.info.toNat]?).map (·.name)
    relaDynamic := match secs[s.link.toNat]? with
      | some t => if t.type = shtDynsym then 1 else 0
      | none => s.relaDynamic }

theorem aimed_relaDynamic {secs : List Section} {s t : Section}
    (h : secs[s.link.toNat]? = some t) :
    (aimed secs s).relaDynamic = if t.type = shtDynsym then 1 else 0 := by
  simp only [aimed, h]

/-- A section with the kind of its type. -/
def classified (secs : List Section) (s : Section) : Section :=
  if s.type = shtSymtab then setKind .symtab s
  else if s.type = shtDynsym then setKind .dynsym s
  else if s.type = shtDynamic then setKind .dynamic s
  else if s.type = shtRela then aimed secs s
  else s

/-- A kind that loads no table. -/
def SecKind.IsText (k : SecKind) : Prop :=
  k = .normal ∨ k = .shstrtab ∨ k = .strtab ∨ k = .dynstr

/-- The same section, or a string table of another such kind. -/
def Retold (s s' : Section) : Prop :=
  s' = s ∨ s.type = shtStrtab ∧ ∃ k : SecKind, k.IsText ∧ s' = setKind k s

/-- Symbol tables link to string tables. -/
def LinksToStrings (secs : List Section) : Prop :=
  ∀ s ∈ secs, s.type = shtSymtab ∨ s.type = shtDynsym →
    ∀ t, secs[s.link.toNat]? = some t → t.type = shtStrtab

variable {secs secs' : List Section} {s s' t : Section} {i j : Nat} {k : SecKind}

theorem Retold.refl (s : Section) : Retold s s := .inl rfl

theorem Retold.type_eq (h : Retold s s') : s'.type = s.type := by
  obtain rfl | ⟨-, k, -, rfl⟩ := h
  · rfl
  · rfl

theorem Retold.name_eq (h : Retold s s') : s'.name = s.name := by
  obtain rfl | ⟨-, k, -, rfl⟩ := h
  · rfl
  · rfl

/-- Marking a string table. -/
theorem Retold.mark (h : Retold s s') (htype : s.type = shtStrtab) (hk : k.IsText) :
    Retold s (setKind k s') := by
  obtain rfl | ⟨-, k', -, rfl⟩ := h
  · exact .inr ⟨htype, k, hk, rfl⟩
  · exact .inr ⟨htype, k, hk, rfl⟩

theorem Retold.eq_of_ne (h : Retold s s') (htype : s.type ≠ shtStrtab) : s' = s :=
  h.resolve_right fun hstr => htype hstr.1

theorem classified_type (secs : List Section) (s : Section) : (classified secs s).type = s.type := by
  unfold classified
  split_ifs <;> rfl

theorem classified_name (secs : List Section) (s : Section) : (classified secs s).name = s.name := by
  unfold classified
  split_ifs <;> rfl

/-- The loop passes over a string table. -/
theorem classified_of_strtab (htype : s.type = shtStrtab) : classified secs s = s := by
  unfold classified
  rw [htype]
  rfl

theorem classified_of_symtab (htype : s.type = shtSymtab) :
    classified secs s = setKind .symtab s := if_pos htype

theorem classified_of_rela (htype : s.type = shtRela) : classified secs s = aimed secs s := by
  unfold classified
  rw [htype]
  rfl

theorem classified_of_other (hsymtab : s.type ≠ shtSymtab) (hdynsym : s.type ≠ shtDynsym)
    (hdynamic : s.type ≠ shtDynamic) (hrela : s.type ≠ shtRela) : classified secs s = s := by
  unfold classified
  rw [if_neg hsymtab, if_neg hdynsym, if_neg hdynamic, if_neg hrela]

/-! ## One turn -/

/-- The first `m` sections have their kinds. -/
structure Classifying (secs : List Section) (m : Nat) (secs' : List Section) : Prop where
  length : secs'.length = secs.length
  get : ∀ (j : Nat) (s : Section), secs[j]? = some s → ∃ s', secs'[j]? = some s' ∧
    Retold (if j < m then classified secs s else s) s'

/-- What a section was before the loop has its type and name. -/
theorem Classifying.same {m : Nat} (h : Classifying secs m secs') (hs : secs[j]? = some s)
    (hs' : secs'[j]? = some s') : s'.type = s.type ∧ s'.name = s.name := by
  obtain ⟨u, hu, hretold⟩ := h.get j s hs
  obtain rfl := Option.some.inj (hs'.symm.trans hu)
  rw [hretold.type_eq, hretold.name_eq]
  split
  · exact ⟨classified_type secs s, classified_name secs s⟩
  · exact ⟨rfl, rfl⟩

/-- Looking up the type and the name of a section. -/
theorem Classifying.map_get {α : Type} {m : Nat} (h : Classifying secs m secs') (f : Section → α)
    (hf : ∀ s s' : Section, s'.type = s.type → s'.name = s.name → f s' = f s) (j : Nat) :
    (secs'[j]?).map f = (secs[j]?).map f := by
  cases hs : secs[j]? with
  | none =>
    have hlen := h.length
    rw [List.getElem?_eq_none_iff] at hs
    rw [List.getElem?_eq_none (by omega)]
  | some s =>
    obtain ⟨s', hs', -⟩ := h.get j s hs
    obtain ⟨htype, hname⟩ := h.same hs hs'
    rw [hs']
    exact congrArg some (hf s s' htype hname)

/-- A turn that sets the kind of a symbol table and marks its string table. -/
theorem Classifying.mark {m : Nat} {kind text : SecKind} (h : Classifying secs m secs')
    (hs : secs[m]? = some s) (hne : s.type ≠ shtStrtab)
    (hclass : classified secs s = setKind kind s)
    (hlink : ∀ t, secs[s.link.toNat]? = some t → t.type = shtStrtab) (htext : text.IsText) :
    Classifying secs (m + 1) (markLink text s.link (secs'.modify m (setKind kind))) where
  length := by rw [markLink, List.length_modify, List.length_modify, h.length]
  get j u hu := by
    obtain ⟨u', hu', hretold⟩ := h.get j u hu
    rw [markLink, List.getElem?_modify, List.getElem?_modify, hu']
    refine ⟨_, rfl, ?_⟩
    dsimp only
    by_cases hj : m = j
    · subst hj
      obtain rfl := Option.some.inj (hs.symm.trans hu)
      rw [if_neg (Nat.lt_irrefl m)] at hretold
      obtain rfl := hretold.eq_of_ne hne
      have hnot : u'.link.toNat ≠ m := fun heq => hne (hlink u' (heq ▸ hu))
      rw [if_pos (Nat.lt_succ_self m), if_pos rfl, if_neg hnot, hclass]
      exact .refl _
    · have hlt : j < m + 1 ↔ j < m := by omega
      rw [if_neg hj]
      simp only [hlt]
      by_cases hl : s.link.toNat = j
      · have htype := hlink u (hl ▸ hu)
        rw [classified_of_strtab htype, ite_self] at hretold ⊢
        rw [if_pos hl]
        exact hretold.mark htype htext
      · rw [if_neg hl]
        exact hretold

/-- A turn that changes at most its own section. -/
theorem Classifying.own {m : Nat} {f : Section → Section} (h : Classifying secs m secs')
    (hs : secs[m]? = some s) (hf : ∀ s', Retold s s' → Retold (classified secs s) (f s')) :
    Classifying secs (m + 1) (secs'.modify m f) where
  length := by rw [List.length_modify, h.length]
  get j u hu := by
    obtain ⟨u', hu', hretold⟩ := h.get j u hu
    rw [List.getElem?_modify, hu']
    refine ⟨_, rfl, ?_⟩
    dsimp only
    by_cases hj : m = j
    · subst hj
      obtain rfl := Option.some.inj (hs.symm.trans hu)
      rw [if_neg (Nat.lt_irrefl m)] at hretold
      rw [if_pos (Nat.lt_succ_self m), if_pos rfl]
      exact hf u' hretold
    · have hlt : j < m + 1 ↔ j < m := by omega
      rw [if_neg hj]
      simp only [hlt]
      exact hretold

/-- The loop finds the target and the symbol table that were there before it. -/
theorem Classifying.aimed_eq {m : Nat} (h : Classifying secs m secs') (s : Section) :
    aimed secs' s = aimed secs s := by
  have hmatch : ∀ o : Option Section, (match o with
      | some t => if t.type = shtDynsym then 1 else 0
      | none => s.relaDynamic) =
        (o.map fun t => if t.type = shtDynsym then (1 : Int) else 0).getD s.relaDynamic := by
    intro o
    cases o <;> rfl
  unfold aimed
  rw [hmatch, hmatch, h.map_get (·.name) (fun _ _ _ hname => hname),
    h.map_get _ fun s s' htype _ => by rw [htype]]

/-- One turn of the loop. -/
theorem Classifying.step {m : Nat} (h : Classifying secs m secs') (hlinks : LinksToStrings secs)
    (hs : secs[m]? = some s) : Classifying secs (m + 1) (classifyAt secs' m) := by
  obtain ⟨s', hs', hretold⟩ := h.get m s hs
  rw [if_neg (Nat.lt_irrefl m)] at hretold
  have hmem := List.mem_of_getElem? hs
  unfold classifyAt
  rw [hs']
  dsimp only
  by_cases hstr : s.type = shtStrtab
  · have htype : s'.type = shtStrtab := hretold.type_eq.trans hstr
    have hown := h.own (f := id) hs fun u hu => by
      rw [classified_of_strtab hstr]
      exact hu
    rw [List.modify_id] at hown
    rw [htype]
    exact hown
  · obtain rfl := hretold.eq_of_ne hstr
    by_cases hsymtab : s'.type = shtSymtab
    · rw [if_pos hsymtab]
      exact h.mark hs hstr (classified_of_symtab hsymtab) (hlinks s' hmem (.inl hsymtab)) (.inr (.inr (.inl rfl)))
    rw [if_neg hsymtab]
    by_cases hdynsym : s'.type = shtDynsym
    · have hclass : classified secs s' = setKind .dynsym s' := by
        unfold classified
        rw [if_neg hsymtab, if_pos hdynsym]
      rw [if_pos hdynsym]
      exact h.mark hs hstr hclass (hlinks s' hmem (.inr hdynsym)) (.inr (.inr (.inr rfl)))
    rw [if_neg hdynsym]
    by_cases hdynamic : s'.type = shtDynamic
    · rw [if_pos hdynamic]
      refine h.own hs fun u hu => ?_
      obtain rfl := hu.eq_of_ne hstr
      unfold classified
      rw [if_neg hsymtab, if_neg hdynsym, if_pos hdynamic]
      exact .refl _
    rw [if_neg hdynamic]
    by_cases hrela : s'.type = shtRela
    · rw [if_pos hrela, List.set_eq_modify]
      refine h.own hs fun u _ => .inl ?_
      rw [classified_of_rela hrela, ← h.aimed_eq]
      rfl
    · rw [if_neg hrela]
      have hown := h.own (f := id) hs fun u hu => by
        rw [classified_of_other hsymtab hdynsym hdynamic hrela]
        exact hu
      rwa [List.modify_id] at hown

/-! ## The whole loop -/

theorem classifying_foldl {init : List Section} (hinit : Classifying secs 0 init)
    (hlinks : LinksToStrings secs) {m : Nat} (hm : m ≤ secs.length) :
    Classifying secs m ((List.range m).foldl classifyAt init) := by
  induction m with
  | zero => exact hinit
  | succ m ih =>
    rw [List.range_succ, List.foldl_append]
    exact (ih (Nat.le_of_succ_le hm)).step hlinks (List.getElem?_eq_getElem hm)

/-- Every section gets the kind of its type; what is marked besides is a string table. -/
theorem classify_get {e : Ehdr} (hlinks : LinksToStrings secs)
    (hnames : ∀ t, secs[e.shstrndx.toNat]? = some t → t.type = shtStrtab)
    (hs : secs[j]? = some s) :
    ∃ s', (classify e secs)[j]? = some s' ∧ Retold (classified secs s) s' := by
  have hinit : Classifying secs 0 (if e.shstrndx ≠ 0 then
      secs.modify e.shstrndx.toNat (setKind .shstrtab) else secs) := by
    refine ⟨?_, fun i u hu => ?_⟩
    · split
      · exact List.length_modify ..
      · rfl
    · rw [if_neg (Nat.not_lt_zero i)]
      split
      · rw [List.getElem?_modify, hu]
        refine ⟨_, rfl, ?_⟩
        dsimp only
        split
        · rename_i hi
          exact (Retold.refl u).mark (hnames u (hi ▸ hu)) (.inr (.inl rfl))
        · exact .refl u
      · exact ⟨u, hu, .refl u⟩
  have hall := classifying_foldl hinit hlinks (Nat.le_of_eq hinit.length)
  obtain ⟨s', hs', hretold⟩ := hall.get j s hs
  have hlt : j < secs.length := (List.getElem?_eq_some_iff.mp hs).1
  rw [hinit.length, if_pos hlt] at hretold
  rw [hinit.length] at hs'
  refine ⟨s', ?_, hretold⟩
  unfold classify
  dsimp only
  rw [hinit.length]
  exact hs'

theorem classify_length (e : Ehdr) (secs : List Section) :
    (classify e secs).length = secs.length := by
  have hturn : ∀ (secs : List Section) (i : Nat), (classifyAt secs i).length = secs.length := by
    intro secs i
    unfold classifyAt markLink
    split
    · rfl
    · split_ifs <;> simp
  have hfold : ∀ (l : List Nat) (secs : List Section),
      (l.foldl classifyAt secs).length = secs.length := by
    intro l
    induction l with
    | nil => exact fun _ => rfl
    | cons i l ih => exact fun secs => (ih _).trans (hturn secs i)
  unfold classify
  dsimp only
  rw [hfold]
  split
  · exact List.length_modify ..
  · rfl

end Cup.Elf
