import GalecAudit.Proofs.Audit.Verdict

/-!
# What a clean audit has covered

The sources of a representation are covered if each of them is among the inputs, builds, and is checked
against the manifest of the representation. A clean audit covers the first representation with the label
for algorithms. That it is the only one is made sure of for one label alone.
-/
namespace GalecAudit

/-- An outcome covers the sources of a manifest at a path: each is an input that is read and builds, and
all that is to be found in it against the table of the manifest is reported. -/
def Outcome.Covers (o : Outcome) (d : Directory) (settings : Settings) (path : String) (m : Manifest) :
    Prop :=
  ∀ file ∈ m.codeFiles, codePath path file ∈ o.inputs ∧
    ∃ source block, d.content (codePath path file) = .text source ∧ readBlock source = .ok block ∧
      ∀ x ∈ auditSource settings (m.table .element) (codePath path file) source, x ∈ o.diagnostics

theorem Outcome.mem_addInputs_iff {inputs more : List String} {x : String} :
    x ∈ addInputs inputs more ↔ x ∈ inputs ∨ x ∈ more := by
  induction more generalizing inputs with
  | nil => simp [addInputs]
  | cons y more ih =>
    have hstep : addInputs inputs (y :: more) =
        addInputs (if inputs.contains y then inputs else inputs ++ [y]) more := rfl
    rw [hstep, ih]
    have hadded : x ∈ (if inputs.contains y then inputs else inputs ++ [y]) ↔ x ∈ inputs ∨ x = y := by
      split
      · next hy =>
        have hx : x = y → x ∈ inputs := fun h => h ▸ List.contains_iff_mem.1 hy
        exact (or_iff_left_of_imp hx).symm
      · rw [List.mem_append, List.mem_singleton]
    rw [hadded, List.mem_cons, or_assoc]

variable {d : Directory} {settings : Settings} {dir path : String} {listing : Listing} {m : Manifest}

section Outcomes

variable {o : Outcome}

/-- What is merged into another outcome is still covered. -/
theorem Outcome.Covers.merge (h : o.Covers d settings path m) (start : Outcome) :
    (start.merge o).Covers d settings path m := by
  intro file hfile
  obtain ⟨hinput, source, block, hc, hb, hx⟩ := h file hfile
  refine ⟨mem_addInputs_iff.2 (.inr hinput), source, block, hc, hb, fun x hm => ?_⟩
  exact List.mem_append_right _ (hx x hm)

theorem Outcome.Covers.report (h : o.Covers d settings path m) (ds : List Diagnostic) :
    (o.report ds).Covers d settings path m := by
  intro file hfile
  obtain ⟨hinput, source, block, hc, hb, hx⟩ := h file hfile
  exact ⟨hinput, source, block, hc, hb, fun x hm => List.mem_append_left _ (hx x hm)⟩

end Outcomes

theorem Directory.auditFile_of_text {manifestPath source : String} {table : VariableTable}
    (h : d.content path = .text source) :
    auditFile d.files settings manifestPath table path =
      ({ inputs := [path], diagnostics := auditSource settings table path source } : Outcome) := by
  change (if d.isThere path = true then outcomeOfSource settings table path (d.read path)
    else { diagnostics := [missingSource manifestPath path] }) = _
  unfold isThere Directory.read
  simp only [h, if_true, outcomeOfSource]

/-- The audit of the sources of a manifest covers them, if it finds no error. -/
theorem Directory.covers_auditSources
    (h : Outcome.hasErrors (auditSources d.files settings path m []) = false) :
    Outcome.Covers (auditSources d.files settings path m []) d settings path m := by
  obtain ⟨hne, hclean⟩ := hasErrors_auditSources_eq_false_iff.1 h
  intro file hfile
  obtain ⟨source, block, hc, hb, -⟩ := hclean file hfile
  have hmem := List.mem_map_of_mem (f := fun file =>
    auditFile d.files settings path (m.table .element) (codePath path file)) hfile
  rw [auditFile_of_text hc] at hmem
  rw [auditSources_eq_sequence hne]
  refine ⟨?_, source, block, hc, hb, fun x hx => ?_⟩
  · exact List.mem_flatMap.2 ⟨_, hmem, List.mem_singleton_self _⟩
  · exact List.mem_flatMap.2 ⟨_, hmem, hx⟩

/-- The audit of a listing covers what the audit of its algorithm representation covers. -/
theorem Directory.covers_auditListing {start : Outcome}
    (h : Outcome.Covers (auditAlgorithm d.files settings listing (d.loadAll dir listing)) d settings
      path m) :
    Outcome.Covers (auditListing d.files settings dir start listing) d settings path m := by
  have hl : listing.representations.mapM (loadRepresentation d.files dir) =
      d.loadAll dir listing := mapM_id _ _
  unfold auditListing
  rw [hl]
  exact (h.merge _).report _

/-- A clean audit is the audit of a listing that is there and can be read. -/
theorem Directory.exists_listing_of_clean
    (h : Outcome.hasErrors (auditContainer d.files settings dir) = false) :
    ∃ source listing, d.content (Path.join dir Listing.fileName) = .text source ∧
      readListing source = .ok listing ∧ auditContainer d.files settings dir =
        auditListing d.files settings dir { inputs := [Path.join dir Listing.fileName] } listing := by
  rw [auditContainer_eq] at h ⊢
  dsimp only at h ⊢
  cases hread : d.read (Path.join dir Listing.fileName) with
  | error failure =>
    rw [hread] at h
    cases h
  | ok source =>
    rw [hread] at h
    dsimp only at h ⊢
    cases hl : readListing source with
    | error e =>
      rw [hl] at h
      cases h
    | ok listing => exact ⟨source, listing, read_eq_ok_iff.1 hread, hl, rfl⟩

/-- The only representation of a kind is the first one. -/
theorem Listing.firstOfKind?_of_single {kind : String} {r : Representation}
    (hsingle : (listing.ofKind kind).length ≤ 1) (hr : r ∈ listing.ofKind kind) :
    listing.firstOfKind? kind = some r := by
  have hpos := List.length_pos_of_mem hr
  obtain ⟨only, honly⟩ := List.length_eq_one_iff.1 (by omega : (listing.ofKind kind).length = 1)
  rw [honly, List.mem_singleton] at hr
  rw [firstOfKind?, honly, hr, List.head?_cons]

/-- The sources that are audited are those of the first representation with the label. -/
theorem Directory.auditAlgorithm_of_first {r : Representation}
    (hread : ∀ r ∈ listing.representations, ∃ m, d.manifestFor? dir r = some m)
    (hr : listing.firstOfKind? settings.algorithmLabel = some r)
    (hm : d.manifestFor? dir r = some m) :
    auditAlgorithm d.files settings listing (d.loadAll dir listing) =
      auditSources d.files settings (r.manifestPath dir) m [] := by
  unfold auditAlgorithm
  rw [findSome?_ofKind (manifestFor?_eq_getD hread), hr]
  simp only [Option.map_some, hm, Option.getD_some]

/-- A clean audit covers the first representation with the label for algorithms. Where the label is the one
under which a second representation is refused, it is the only one with the label. -/
theorem Directory.covers_of_clean
    (h : Outcome.hasErrors (auditContainer d.files settings dir) = false) :
    ∃ source listing, d.content (Path.join dir Listing.fileName) = .text source ∧
      readListing source = .ok listing ∧ ∀ r ∈ listing.ofKind settings.algorithmLabel,
        settings.algorithmLabel = Listing.algorithmKind ∨
          listing.firstOfKind? settings.algorithmLabel = some r →
        ∃ m, d.manifestFor? dir r = some m ∧
          Outcome.Covers (auditContainer d.files settings dir) d settings (r.manifestPath dir) m := by
  obtain ⟨source, listing, hc, hl, haudit⟩ := exists_listing_of_clean h
  rw [haudit] at h ⊢
  have horder := (auditListing_clean_iff rfl hc hl).1 h
  have hsources := ((hasErrors_auditListing_eq_false_iff rfl).1 h).2.1
  obtain ⟨first, m, hfirst, hm, -⟩ := horder.sources
  refine ⟨source, listing, hc, hl, fun r hr hlabel => ?_⟩
  have hr : listing.firstOfKind? settings.algorithmLabel = some r := by
    rcases hlabel with hlabel | hlabel
    · exact Listing.firstOfKind?_of_single (hlabel ▸ horder.single) hr
    · exact hlabel
  obtain rfl := Option.some.inj (hfirst.symm.trans hr)
  refine ⟨m, hm, covers_auditListing ?_⟩
  rw [auditAlgorithm_of_first horder.readable hfirst hm] at hsources ⊢
  exact covers_auditSources hsources

/-- A listing of two representations of one kind. -/
def twinListing : String := "<Content>
<ModelRepresentation kind='Code' name='A' manifest='m.xml'/>
<ModelRepresentation kind='Code' name='B' manifest='m.xml'/>
</Content>"

/-- A container with two representations of one kind. The source of the second one is no block. -/
def twinContainer : Directory where
  content path :=
    if path = "c/__content.xml" then .text twinListing
    else if path = "c/A/m.xml" then
      .text "<Manifest id='a'><Files><File name='a.alg' role='Code'/></Files></Manifest>"
    else if path = "c/B/m.xml" then
      .text "<Manifest id='b'><Files><File name='b.alg' role='Code'/></Files></Manifest>"
    else if path = "c/A/a.alg" then .text "block B\nprotected\npublic\nend B;"
    else if path = "c/B/b.alg" then .text "block"
    else .absent (.system "No such file or directory" 2)

/-- Settings under which sources stand in representations of the kind `Code`. -/
def codeSettings : Settings := { algorithmLabel := "Code" }

theorem auditContainer_twinContainer :
    auditContainer twinContainer.files codeSettings "c" =
      ({ inputs := ["c/__content.xml", "c/A/m.xml", "c/B/m.xml", "c/A/a.alg"] } : Outcome) := by
  change (_ : Outcome) = _
  decide +kernel

theorem covers_twinContainer :
    Outcome.hasErrors (auditContainer twinContainer.files codeSettings "c") = false ∧
      ∃ source listing, twinContainer.content (Path.join "c" Listing.fileName) = .text source ∧
        readListing source = .ok listing ∧ ∀ r ∈ listing.ofKind codeSettings.algorithmLabel,
          codeSettings.algorithmLabel = Listing.algorithmKind ∨
            listing.firstOfKind? codeSettings.algorithmLabel = some r →
          ∃ m, twinContainer.manifestFor? "c" r = some m ∧
            Outcome.Covers (auditContainer twinContainer.files codeSettings "c") twinContainer
              codeSettings (r.manifestPath "c") m := by
  have hclean : Outcome.hasErrors (auditContainer twinContainer.files codeSettings "c") = false := by
    rw [auditContainer_twinContainer]
    rfl
  exact ⟨hclean, Directory.covers_of_clean hclean⟩

/-- The audit of the twins is clean, and the source of the second one is not even an input. -/
theorem skipped_source_of_twinContainer :
    Outcome.hasErrors (auditContainer twinContainer.files codeSettings "c") = false ∧
      ∃ source listing r m file, twinContainer.content (Path.join "c" Listing.fileName) = .text source ∧
        readListing source = .ok listing ∧ r ∈ listing.ofKind codeSettings.algorithmLabel ∧
        twinContainer.manifestFor? "c" r = some m ∧ file ∈ m.codeFiles ∧
        codePath (r.manifestPath "c") file ∉
          Outcome.inputs (auditContainer twinContainer.files codeSettings "c") := by
  have hlisting : (readListing twinListing).toOption = some
      ⟨[⟨"Code", "A", "m.xml", none, none, 2⟩, ⟨"Code", "B", "m.xml", none, none, 3⟩]⟩ := by
    decide +kernel
  have hmanifest : twinContainer.manifestFor? "c" ⟨"Code", "B", "m.xml", none, none, 3⟩ =
      some ⟨some "b", [], [⟨"b.alg", some "Code", 1⟩], []⟩ := by
    decide +kernel
  cases hread : readListing twinListing with
  | error e =>
    rw [hread] at hlisting
    cases hlisting
  | ok listing =>
    rw [hread] at hlisting
    obtain rfl := Option.some.inj hlisting
    rw [auditContainer_twinContainer]
    exact ⟨rfl, _, _, _, _, ⟨"b.alg", some "Code", 1⟩, rfl, hread, by decide, hmanifest, by decide,
      by decide⟩

end GalecAudit
