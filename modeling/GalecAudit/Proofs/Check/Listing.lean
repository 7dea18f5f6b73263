import GalecAudit.Check.Listing
import GalecAudit.Proofs.Source.Tables

/-!
# Exactness of the comparison with the manifest

A clean comparison means that manifest and block match, and how much that says of sizes: an entity has the
listed sizes unless its array is not listed element by element on either side, and a protected array is
only known to be no smaller than the listed one.
-/
namespace GalecAudit

/-- A manifest and a block name the same interface, with sizes as far as they are compared. -/
structure Manifest.Matches (m : Manifest) (b : Source.Block) : Prop where
  /-- Every listed variable is declared with its type and role. -/
  declared : ∀ v ∈ m.listed, ∃ entry, (v.name, entry) ∈ b.entityVariables ++ b.sectionVariables ∧
    v.type = entry.type ∧ v.causality.acceptsDeclared entry.causality = true
  /-- Every entity is listed. -/
  listed : ∀ name entry, (name, entry) ∈ b.entityVariables → ∃ v ∈ m.listed, v.name = name
  /-- The sizes of an entity are the listed ones, or no elements are listed with either. -/
  entitySizes : ∀ v ∈ m.listed, ∀ entry, (v.name, entry) ∈ b.entityVariables →
    v.dimensions = entry.dimensions ∨
      isExpanded v.dimensions = false ∧ isExpanded entry.dimensions = false
  /-- A protected array is as deep as the listed one and no smaller, if the elements are listed. -/
  sectionSizes : ∀ v ∈ m.listed, ∀ entry, (v.name, entry) ∈ b.sectionVariables →
    FitsWithin v.dimensions entry.dimensions

section Tables

variable {vs ws : List (String × Entry)}

/-- One table contains every name of another exactly if each of its variables is a variable of the other
that its elements fit within. -/
theorem contains_subset_iff (hv : ∀ p ∈ vs, IsPlain p.1) (hw : ∀ p ∈ ws, IsPlain p.1)
    (hd : (ws.map Prod.fst).Nodup) :
    (∀ key, (VariableTable.ofVariables vs).contains key = true →
      (VariableTable.ofVariables ws).contains key = true) ↔
    ∀ name entry, (name, entry) ∈ vs →
      ∃ other, (name, other) ∈ ws ∧ FitsWithin entry.dimensions other.dimensions := by
  constructor
  · intro h name entry hm
    have hn : IsPlain name := hv _ hm
    obtain ⟨other, ho⟩ := (contains_ofVariables_of_isPlain hn).1
      (h name ((contains_ofVariables_of_isPlain hn).2 ⟨entry, hm⟩))
    refine ⟨other, ho, elementPositions_subset_iff.1 fun index hi => ?_⟩
    have hne := ne_nil_of_mem_elementPositions hi
    obtain ⟨found, hf, hpos⟩ := (contains_ofVariables_indexedName hw hne).1
      (h _ ((contains_ofVariables_indexedName hv hne).2 ⟨entry, hm, hi⟩))
    rw [entry_unique hd ho hf]
    exact hpos
  · intro h key hc
    obtain ⟨entry, he⟩ := contains_ofVariables.1 hc
    rcases mem_expand_iff.1 he with hm | ⟨name, owner, hm, index, hi, rfl, -⟩
    · obtain ⟨other, ho, -⟩ := h key entry hm
      exact (contains_ofVariables_of_isPlain (hv _ hm)).2 ⟨other, ho⟩
    · obtain ⟨other, ho, hfits⟩ := h name owner hm
      exact (contains_ofVariables_indexedName hw (ne_nil_of_mem_elementPositions hi)).2
        ⟨other, ho, elementPositions_subset_iff.2 hfits index hi⟩

/-- The entries of whole variables in a table are the variables that it was made of. -/
theorem mem_declared_ofVariables (hv : ∀ p ∈ vs, IsPlain p.1) (hd : (vs.map Prod.fst).Nodup)
    (hwhole : ∀ p ∈ vs, p.2.isElement = false) {name : String} {entry : Entry} :
    (name, entry) ∈ (VariableTable.ofVariables vs).declared ↔ (name, entry) ∈ vs := by
  unfold VariableTable.declared
  rw [List.mem_filter, VariableTable.mem_toList_iff]
  constructor
  · rintro ⟨hg, he⟩
    have hm := VariableTable.mem_of_get?_empty_insertMany hg
    rcases mem_expand_iff.1 hm with hm | ⟨_, _, _, _, _, _, rfl⟩
    · exact hm
    · cases he
  · intro hm
    refine ⟨(get?_ofVariables hd (hv _ hm)).2 hm, ?_⟩
    dsimp only
    rw [hwhole _ hm]
    rfl

end Tables

/-- The names of a table that another one does not contain. -/
theorem filter_contains_eq_nil_iff {a b : VariableTable} :
    (a.toList.filter fun (name, _) => !b.contains name) = [] ↔
      ∀ key, a.contains key = true → b.contains key = true := by
  rw [List.filter_eq_nil_iff]
  constructor
  · intro h key hk
    obtain ⟨entry, he⟩ := VariableTable.contains_iff.1 hk
    simpa using h (key, entry) (VariableTable.mem_toList_iff.2 he)
  · rintro h ⟨key, entry⟩ hm
    have hk := h key (VariableTable.contains_iff.2 ⟨entry, VariableTable.mem_toList_iff.1 hm⟩)
    simp [hk]

theorem compareEntries_eq_nil_iff {name : String} {listed declared : Entry} :
    compareEntries name listed declared = [] ↔ listed.type = declared.type ∧
      listed.causality.acceptsDeclared declared.causality = true := by
  unfold compareEntries
  rw [List.append_eq_nil_iff]
  simp

/-- The comparison of tables, on the variables that they were made of. -/
theorem compareDeclarations_eq_nil_iff_of_variables {vs es ps : List (String × Entry)}
    {block : Block} (he : block.entities = VariableTable.ofVariables es)
    (hp : block.protectedVariables = VariableTable.ofVariables ps)
    (hdv : (vs.map Prod.fst).Nodup) (hd : ((es ++ ps).map Prod.fst).Nodup)
    (hv : ∀ p ∈ vs, IsPlain p.1) (hw : ∀ p ∈ es ++ ps, IsPlain p.1)
    (hwhole : ∀ p ∈ vs, p.2.isElement = false) :
    compareDeclarations (VariableTable.ofVariables vs) block = [] ↔
      (∀ name listed, (name, listed) ∈ vs → ∃ entry, (name, entry) ∈ es ++ ps ∧
        listed.type = entry.type ∧ listed.causality.acceptsDeclared entry.causality = true ∧
        FitsWithin listed.dimensions entry.dimensions) ∧
      ∀ name entry, (name, entry) ∈ es → ∃ listed, (name, listed) ∈ vs ∧
        FitsWithin entry.dimensions listed.dimensions := by
  have hget (key : String) : block.declarations.get? key =
      (VariableTable.ofVariables (es ++ ps)).get? key := by
    rw [Block.declarations, he, hp, get?_union_ofVariables]
  have hes : ∀ p ∈ es, IsPlain p.1 := fun p hm => hw p (List.mem_append_left ps hm)
  unfold compareDeclarations
  dsimp only
  rw [List.append_eq_nil_iff, List.append_eq_nil_iff, List.map_eq_nil_iff, List.map_eq_nil_iff,
    filter_contains_eq_nil_iff, filter_contains_eq_nil_iff, List.flatMap_eq_nil_iff, he,
    contains_subset_iff hes hv hdv]
  simp only [VariableTable.contains_congr (hget _), contains_subset_iff hv hw hd]
  constructor
  · rintro ⟨⟨hdeclared, hlisted⟩, hentries⟩
    refine ⟨fun name listed hm => ?_, hlisted⟩
    obtain ⟨entry, hentry, hfits⟩ := hdeclared name listed hm
    have hc := hentries (name, listed) ((mem_declared_ofVariables hv hdv hwhole).2 hm)
    have hg := (get?_ofVariables hd (hw _ hentry)).2 hentry
    simp only [hget, hg] at hc
    obtain ⟨ht, hrole⟩ := compareEntries_eq_nil_iff.1 hc
    exact ⟨entry, hentry, ht, hrole, hfits⟩
  · rintro ⟨hdeclared, hlisted⟩
    refine ⟨⟨fun name listed hm => ?_, hlisted⟩, ?_⟩
    · obtain ⟨entry, hentry, -, -, hfits⟩ := hdeclared name listed hm
      exact ⟨entry, hentry, hfits⟩
    · rintro ⟨name, listed⟩ hm
      obtain ⟨entry, hentry, ht, hrole, -⟩ :=
        hdeclared name listed ((mem_declared_ofVariables hv hdv hwhole).1 hm)
      have hg := (get?_ofVariables hd (hw _ hentry)).2 hentry
      simp only [hget, hg]
      exact compareEntries_eq_nil_iff.2 ⟨ht, hrole⟩

theorem Manifest.mem_namedEntries_iff {m : Manifest} {name : String} {entry : Entry} :
    (name, entry) ∈ m.namedEntries ↔ ∃ v ∈ m.listed, v.name = name ∧ entryOf v = entry := by
  unfold namedEntries
  simp

/-- The comparison of a block with a manifest is clean exactly if they match, where every variable is
listed once, every variable is declared once, and no name ends with a bracket as those of elements do. -/
theorem compareDeclarations_eq_nil_iff {m : Manifest} {b : Source.Block} {block : Block}
    (hb : b.flatten = .ok block) (hlisted : (m.listed.map ListedVariable.name).Nodup)
    (hdeclared : ((b.entityVariables ++ b.sectionVariables).map Prod.fst).Nodup)
    (hplain : ∀ v ∈ m.listed, IsPlain v.name)
    (hplain' : ∀ p ∈ b.entityVariables ++ b.sectionVariables, IsPlain p.1) :
    compareDeclarations (m.table .element) block = [] ↔ m.Matches b := by
  obtain ⟨he, hp⟩ := Source.Block.tables_of_flatten hb
  have hdv : (m.namedEntries.map Prod.fst).Nodup := by
    unfold Manifest.namedEntries
    rw [List.map_map]
    exact hlisted
  have hv : ∀ p ∈ m.namedEntries, IsPlain p.1 := by
    rintro ⟨name, entry⟩ hm
    obtain ⟨v, hv, rfl, -⟩ := Manifest.mem_namedEntries_iff.1 hm
    exact hplain v hv
  have hwhole : ∀ p ∈ m.namedEntries, p.2.isElement = false := by
    rintro ⟨name, entry⟩ hm
    obtain ⟨v, -, -, rfl⟩ := Manifest.mem_namedEntries_iff.1 hm
    rfl
  rw [Manifest.table_element,
    compareDeclarations_eq_nil_iff_of_variables he hp hdv hdeclared hv hplain' hwhole]
  have hnamed {v : ListedVariable} (h : v ∈ m.listed) :
      (v.name, Manifest.entryOf v) ∈ m.namedEntries :=
    Manifest.mem_namedEntries_iff.2 ⟨v, h, rfl, rfl⟩
  constructor
  · rintro ⟨hdecl, hlist⟩
    constructor
    · intro v hm
      obtain ⟨entry, hentry, ht, hrole, -⟩ := hdecl _ _ (hnamed hm)
      exact ⟨entry, hentry, ht, hrole⟩
    · intro name entry hm
      obtain ⟨listed, hl, -⟩ := hlist name entry hm
      obtain ⟨v, hmem, hname, -⟩ := Manifest.mem_namedEntries_iff.1 hl
      exact ⟨v, hmem, hname⟩
    · intro v hm entry hentry
      obtain ⟨found, hf, -, -, hfits⟩ := hdecl _ _ (hnamed hm)
      obtain ⟨listed, hl, hback⟩ := hlist _ _ hentry
      rw [entry_unique hdeclared hf (List.mem_append_left _ hentry)] at hfits
      rw [entry_unique hdv hl (hnamed hm)] at hback
      exact fitsWithin_and_fitsWithin_iff.1 ⟨hfits, hback⟩
    · intro v hm entry hentry
      obtain ⟨found, hf, -, -, hfits⟩ := hdecl _ _ (hnamed hm)
      rw [entry_unique hdeclared hf (List.mem_append_right _ hentry)] at hfits
      exact hfits
  · intro h
    constructor
    · intro name listed hm
      obtain ⟨v, hv, rfl, rfl⟩ := Manifest.mem_namedEntries_iff.1 hm
      obtain ⟨entry, hentry, ht, hrole⟩ := h.declared v hv
      refine ⟨entry, hentry, ht, hrole, ?_⟩
      rcases List.mem_append.1 hentry with hentity | hsection
      · exact (fitsWithin_and_fitsWithin_iff.2 (h.entitySizes v hv entry hentity)).1
      · exact h.sectionSizes v hv entry hsection
    · intro name entry hm
      obtain ⟨v, hv, rfl⟩ := h.listed name entry hm
      exact ⟨Manifest.entryOf v, hnamed hv,
        (fitsWithin_and_fitsWithin_iff.2 (h.entitySizes v hv entry hm)).2⟩

/-- A manifest that lists the state `s` with two elements. -/
def pairManifest : Manifest where
  listed := [{ name := "s", type := .real, causality := .state, dimensions := [2], line := 1 }]

/-- A block whose protected section declares `Real s[3]`. -/
def tripleBlock : Source.Block where
  name := "B"
  entities := []
  protectedItems := [.variable none
    { type := .primitive .real
      name := "s"
      dimensions := [.sized (.literal .integer "3" 3) "3"]
      range := none
      line := 3 }]
  publicRoutines := []
  endName := ⟨"B", 5⟩
  line := 1

theorem sectionVariables_tripleBlock : tripleBlock.sectionVariables =
    [("s", { type := .real, causality := .state, line := 3, dimensions := [3] })] := by
  decide +kernel

/-- A clean comparison does not mean that the sizes agree: the third element of the protected array is
nowhere looked for. -/
theorem clean_comparison_of_other_sizes : ∃ block, tripleBlock.flatten = .ok block ∧
    compareDeclarations (pairManifest.table .element) block = [] ∧
    ∃ v ∈ pairManifest.listed, ∃ entry, (v.name, entry) ∈ tripleBlock.sectionVariables ∧
      v.dimensions = [2] ∧ entry.dimensions = [3] := by
  refine ⟨_, rfl, by decide +kernel, _, List.mem_singleton.2 rfl,
    { type := .real, causality := .state, line := 3, dimensions := [3] }, ?_, rfl, rfl⟩
  rw [sectionVariables_tripleBlock]
  exact List.mem_singleton.2 rfl

/-- The pair of the manifest matches the triple of the block, as a protected array may be larger. -/
theorem matches_pairManifest_tripleBlock : ∃ block, tripleBlock.flatten = .ok block ∧
    compareDeclarations (pairManifest.table .element) block = [] ∧
    pairManifest.Matches tripleBlock := by
  have hnames : tripleBlock.entityVariables ++ tripleBlock.sectionVariables =
      [("s", { type := .real, causality := .state, line := 3, dimensions := [3] })] :=
    sectionVariables_tripleBlock
  have hclean : ∃ block, tripleBlock.flatten = .ok block ∧
      compareDeclarations (pairManifest.table .element) block = [] :=
    ⟨_, rfl, by decide +kernel⟩
  obtain ⟨block, hb, hc⟩ := hclean
  refine ⟨block, hb, hc, (compareDeclarations_eq_nil_iff hb (by decide) ?_ (by decide) ?_).1 hc⟩
  · rw [hnames]
    decide
  · rw [hnames]
    decide

end GalecAudit
