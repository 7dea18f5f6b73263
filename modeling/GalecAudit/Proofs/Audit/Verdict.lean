import GalecAudit.Proofs.Audit.Directory
import GalecAudit.Proofs.Container.References
import GalecAudit.Proofs.Manifest.Reconciliation

/-!
# The verdict on a container

What a container has to be like for its audit to find no error, said without the audit, and the proof that
the audit finds none exactly then.
-/
namespace GalecAudit

/-- The manifest that the listing gives a representation, if one can be read in its place. -/
def Directory.manifestFor? (d : Directory) (dir : String) (r : Representation) : Option Manifest :=
  d.manifest? (r.manifestPath dir)

/-- A container that is in order, with its listing. -/
structure Directory.InOrder (d : Directory) (settings : Settings) (dir : String)
    (listing : Listing) : Prop where
  /-- The listing is there and can be read. -/
  listed : ∃ source, d.content (Path.join dir Listing.fileName) = .text source ∧
    readListing source = .ok listing
  /-- At most one representation is of the kind for algorithms. -/
  single : (listing.ofKind Listing.algorithmKind).length ≤ 1
  /-- Every manifest can be read and has the identity that is asked for. -/
  identified : ∀ r ∈ listing.representations, ∃ m, d.manifestFor? dir r = some m ∧
    ∀ expected, r.manifestId = some expected → m.id = some expected
  /-- Every reference of a manifest is met at another place of the listing. -/
  resolved : ∀ (i : Nat) r m, listing.representations[i]? = some r → d.manifestFor? dir r = some m →
    ∀ reference ∈ m.references, ∃ (j : Nat) (other : Representation) (found : Manifest), j ≠ i ∧
      listing.representations[j]? = some other ∧ d.manifestFor? dir other = some found ∧
      found.id = some reference.target
  /-- The first representation with the label for algorithms has sources, all of them clean. -/
  sources : ∃ r m, listing.firstOfKind? settings.algorithmLabel = some r ∧
    d.manifestFor? dir r = some m ∧ m.codeFiles ≠ [] ∧
    ∀ file ∈ m.codeFiles,
      d.CleanSource settings (m.table .element) (codePath (r.manifestPath dir) file)
  /-- It agrees with the first representation with the label for equations, if it is asked to and there
  is one. -/
  reconciled : settings.crossCheck = true → ∀ r m r' m',
    listing.firstOfKind? settings.algorithmLabel = some r → d.manifestFor? dir r = some m →
    listing.firstOfKind? settings.equationLabel = some r' → d.manifestFor? dir r' = some m' →
    (m.table .aggregate).Agree (m'.table .aggregate)

variable {d : Directory} {settings : Settings} {dir : String} {listing : Listing}

/-- What the audit has read of a representation. -/
def Directory.load (d : Directory) (dir : String) (r : Representation) : Loaded :=
  ⟨r, r.manifestPath dir, manifestOf (r.manifestPath dir) (d.read (r.manifestPath dir))⟩

def Directory.loadAll (d : Directory) (dir : String) (listing : Listing) : List Loaded :=
  listing.representations.map (d.load dir)

theorem Listing.duplicates_eq_nil_iff :
    listing.duplicates = [] ↔ (listing.ofKind Listing.algorithmKind).length ≤ 1 := by
  rw [duplicates, List.map_eq_nil_iff, List.drop_eq_nil_iff]

theorem Listing.isError_of_mem_duplicates {e : Diagnostic} (h : e ∈ listing.duplicates) :
    e.isError = true := by
  obtain ⟨r, _, rfl⟩ := List.mem_map.1 h
  rfl

theorem Representation.isError_of_mem_checkIdentity {r : Representation} {m : Manifest}
    {e : Diagnostic} (h : e ∈ r.checkIdentity m) : e.isError = true := by
  unfold checkIdentity at h
  split at h
  · split at h
    · cases h
    · cases List.mem_singleton.1 h
      rfl
  · cases h

theorem Representation.checkIdentity_eq_nil_iff {r : Representation} {m : Manifest} :
    r.checkIdentity m = [] ↔ ∀ expected, r.manifestId = some expected → m.id = some expected := by
  unfold checkIdentity
  cases r.manifestId with
  | none => simp
  | some expected => simp

theorem Directory.isError_of_mem_findings {r : Representation} {e : Diagnostic}
    (h : e ∈ (d.load dir r).findings) : e.isError = true := by
  unfold Loaded.findings at h
  split at h
  · next hm =>
    cases List.mem_singleton.1 h
    exact isError_of_manifestOf hm
  · exact Representation.isError_of_mem_checkIdentity h

/-- A representation has no findings exactly if its manifest can be read and has its identity. -/
theorem Directory.findings_eq_nil_iff {r : Representation} :
    (d.load dir r).findings = [] ↔ ∃ m, d.manifestFor? dir r = some m ∧
      ∀ expected, r.manifestId = some expected → m.id = some expected := by
  have hm {m : Manifest} : (d.load dir r).manifest = .ok m ↔ d.manifestFor? dir r = some m :=
    manifestOf_eq_ok_iff
  unfold Loaded.findings
  cases hl : (d.load dir r).manifest with
  | error e =>
    refine iff_of_false (fun h => by cases h) ?_
    rintro ⟨m, h, -⟩
    rw [← hm, hl] at h
    cases h
  | ok m =>
    have h : d.manifestFor? dir r = some m := hm.1 hl
    rw [h]
    simp only [Option.some.injEq, exists_eq_left']
    exact Representation.checkIdentity_eq_nil_iff

/-- The audit of a listing that can be read, as its parts. -/
theorem Directory.hasErrors_auditListing_eq_false_iff {start : Outcome}
    (hs : start.hasErrors = false) :
    Outcome.hasErrors (auditListing d.files settings dir start listing) = false ↔
      (listing.duplicates = [] ∧ ∀ r ∈ listing.representations, (d.load dir r).findings = []) ∧
      Outcome.hasErrors (auditAlgorithm d.files settings listing (d.loadAll dir listing)) = false ∧
      hasErrors (crossCheck settings (d.loadAll dir listing)) = false ∧
      hasErrors (unresolvedReferences ((d.loadAll dir listing).filterMap Loaded.labelled?)) =
        false := by
  have hl : listing.representations.mapM (loadRepresentation d.files dir) =
      d.loadAll dir listing := mapM_id _ _
  have hduplicates : hasErrors listing.duplicates = false ↔ listing.duplicates = [] :=
    hasErrors_eq_false_iff fun e he => Listing.isError_of_mem_duplicates he
  have hfindings : hasErrors ((d.loadAll dir listing).flatMap Loaded.findings) = false ↔
      ∀ r ∈ listing.representations, (d.load dir r).findings = [] := by
    rw [hasErrors_eq_false_iff, List.flatMap_eq_nil_iff, loadAll, List.forall_mem_map]
    intro e he
    obtain ⟨l, hl, hf⟩ := List.mem_flatMap.1 he
    obtain ⟨r, _, rfl⟩ := List.mem_map.1 hl
    exact isError_of_mem_findings hf
  unfold auditListing
  rw [hl]
  change Outcome.hasErrors (Outcome.report (Outcome.merge _ _) _) = false ↔ _
  rw [Outcome.hasErrors_report, Outcome.hasErrors_merge]
  change (GalecAudit.hasErrors (start.diagnostics ++ listing.duplicates ++ _) || _ || _) =
    false ↔ _
  rw [hasErrors_append, hasErrors_append, hasErrors_append]
  simp only [Bool.or_eq_false_iff, hduplicates, hfindings, and_assoc]
  exact and_iff_right hs

section Read

/-! From here on every manifest of the listing can be read: `m` gives each representation its own. -/

variable {m : Representation → Manifest}

theorem Directory.loadAll_eq_map
    (h : ∀ r ∈ listing.representations, d.manifestFor? dir r = some (m r)) :
    d.loadAll dir listing =
      listing.representations.map fun r => ⟨r, r.manifestPath dir, .ok (m r)⟩ := by
  refine List.map_congr_left fun r hr => ?_
  unfold load
  rw [manifestOf_eq_ok_iff.2 (h r hr)]

/-- The first readable manifest of a kind is that of the first representation of the kind. -/
theorem Directory.findSome?_ofKind
    (h : ∀ r ∈ listing.representations, d.manifestFor? dir r = some (m r)) (kind : String) :
    (d.loadAll dir listing).findSome? (Loaded.ofKind? kind) =
      (listing.firstOfKind? kind).map fun r => (r.manifestPath dir, m r) := by
  rw [loadAll_eq_map h, Listing.firstOfKind?, Listing.ofKind]
  generalize listing.representations = rs
  induction rs with
  | nil => rfl
  | cons r rest ih =>
    rw [List.map_cons, List.findSome?_cons, List.filter_cons, ih]
    by_cases hk : r.kind = kind
    · simp [Loaded.ofKind?, hk]
    · simp [Loaded.ofKind?, hk]

theorem Directory.labelled_eq_map
    (h : ∀ r ∈ listing.representations, d.manifestFor? dir r = some (m r)) :
    (d.loadAll dir listing).filterMap Loaded.labelled? =
      listing.representations.map fun r => ⟨r.kind, m r⟩ := by
  rw [loadAll_eq_map h, List.filterMap_map, ← List.filterMap_eq_map]
  rfl

theorem Directory.hasErrors_auditAlgorithm_eq_false_iff
    (h : ∀ r ∈ listing.representations, d.manifestFor? dir r = some (m r)) :
    Outcome.hasErrors (auditAlgorithm d.files settings listing (d.loadAll dir listing)) = false ↔
      ∃ r, listing.firstOfKind? settings.algorithmLabel = some r ∧ (m r).codeFiles ≠ [] ∧
        ∀ file ∈ (m r).codeFiles,
          d.CleanSource settings ((m r).table .element) (codePath (r.manifestPath dir) file) := by
  unfold auditAlgorithm
  rw [findSome?_ofKind h]
  cases listing.firstOfKind? settings.algorithmLabel with
  | none =>
    refine iff_of_false (fun hn => by cases hn) ?_
    rintro ⟨r, hr, -⟩
    cases hr
  | some r =>
    simp only [Option.map_some, Option.some.injEq, exists_eq_left']
    exact hasErrors_auditSources_eq_false_iff

theorem hasErrors_reconcileManifests_eq_false_iff {first second : Manifest} :
    hasErrors (reconcileManifests settings first second) = false ↔
      (first.table .aggregate).Agree (second.table .aggregate) := by
  rw [hasErrors_eq_false_iff]
  · unfold reconcileManifests Reconciliation.toDiagnostics
    rw [List.map_eq_nil_iff, reconcile_mismatches_eq_nil_iff]
  · intro e he
    obtain ⟨mismatch, _, rfl⟩ := List.mem_map.1 he
    rfl

theorem Directory.hasErrors_crossCheck_eq_false_iff
    (h : ∀ r ∈ listing.representations, d.manifestFor? dir r = some (m r)) :
    hasErrors (crossCheck settings (d.loadAll dir listing)) = false ↔
      (settings.crossCheck = true → ∀ r r',
        listing.firstOfKind? settings.algorithmLabel = some r →
        listing.firstOfKind? settings.equationLabel = some r' →
        ((m r).table .aggregate).Agree ((m r').table .aggregate)) := by
  unfold crossCheck
  rw [findSome?_ofKind h, findSome?_ofKind h]
  cases settings.crossCheck with
  | false => exact iff_of_true rfl fun hc => by cases hc
  | true =>
    cases listing.firstOfKind? settings.algorithmLabel with
    | none => exact iff_of_true rfl fun _ _ _ hr => by cases hr
    | some r =>
      cases listing.firstOfKind? settings.equationLabel with
      | none => exact iff_of_true rfl fun _ _ _ _ hr => by cases hr
      | some r' =>
        refine (hasErrors_reconcileManifests_eq_false_iff).trans ?_
        simp

theorem Directory.hasErrors_unresolvedReferences_eq_false_iff
    (h : ∀ r ∈ listing.representations, d.manifestFor? dir r = some (m r)) :
    hasErrors (unresolvedReferences ((d.loadAll dir listing).filterMap Loaded.labelled?)) = false ↔
      ∀ (i : Nat) r, listing.representations[i]? = some r → ∀ reference ∈ (m r).references,
        ∃ (j : Nat) (other : Representation), j ≠ i ∧ listing.representations[j]? = some other ∧
          (m other).id = some reference.target := by
  rw [hasErrors_eq_false_iff fun e he => isError_of_mem_unresolvedReferences he,
    unresolvedReferences_eq_nil_iff, labelled_eq_map h]
  simp only [List.getElem?_map, Option.map_eq_some_iff]
  constructor
  · intro hu i r hr reference hm
    obtain ⟨j, _, hj, ⟨other, ho, rfl⟩, hid⟩ := hu i _ ⟨r, hr, rfl⟩ reference hm
    exact ⟨j, other, hj, ho, hid⟩
  · rintro hu i _ ⟨r, hr, rfl⟩ reference hm
    obtain ⟨j, other, hj, ho, hid⟩ := hu i r hr reference hm
    exact ⟨j, _, hj, ⟨other, ho, rfl⟩, hid⟩

end Read

theorem Listing.mem_of_firstOfKind? {kind : String} {r : Representation}
    (h : listing.firstOfKind? kind = some r) : r ∈ listing.representations :=
  (List.mem_filter.1 (List.mem_of_head? h)).1

theorem Directory.manifestFor?_eq_getD
    (h : ∀ r ∈ listing.representations, ∃ m, d.manifestFor? dir r = some m) :
    ∀ r ∈ listing.representations,
      d.manifestFor? dir r = some ((d.manifestFor? dir r).getD {}) := by
  intro r hr
  obtain ⟨m, hm⟩ := h r hr
  rw [hm]
  rfl

/-- Where all is in order, every manifest can be read. -/
theorem Directory.InOrder.readable (h : d.InOrder settings dir listing) :
    ∀ r ∈ listing.representations, ∃ m, d.manifestFor? dir r = some m := by
  intro r hr
  obtain ⟨m, hm, -⟩ := h.identified r hr
  exact ⟨m, hm⟩

/-- The audit of a listing that can be read is clean exactly if the container is in order. -/
theorem Directory.auditListing_clean_iff {start : Outcome} {source : String}
    (hs : start.hasErrors = false)
    (hc : d.content (Path.join dir Listing.fileName) = .text source)
    (hl : readListing source = .ok listing) :
    Outcome.hasErrors (auditListing d.files settings dir start listing) = false ↔
      d.InOrder settings dir listing := by
  rw [hasErrors_auditListing_eq_false_iff hs, Listing.duplicates_eq_nil_iff]
  simp only [findings_eq_nil_iff]
  -- a manifest that cannot be read is a finding of its own and a failure of the order
  by_cases hread : ∀ r ∈ listing.representations, ∃ m, d.manifestFor? dir r = some m
  · have hm := manifestFor?_eq_getD hread
    rw [hasErrors_auditAlgorithm_eq_false_iff hm, hasErrors_crossCheck_eq_false_iff hm,
      hasErrors_unresolvedReferences_eq_false_iff hm]
    constructor
    · rintro ⟨⟨hsingle, hid⟩, ⟨r, hr, hfiles⟩, hcross, href⟩
      refine ⟨⟨source, hc, hl⟩, hsingle, hid, ?_, ?_, ?_⟩
      · intro i r m hr hmr reference hmem
        have hmr' : (d.manifestFor? dir r).getD {} = m := by rw [hmr]; rfl
        obtain ⟨j, other, hj, ho, hid⟩ := href i r hr reference (hmr' ▸ hmem)
        exact ⟨j, other, _, hj, ho, hm other (List.mem_of_getElem? ho), hid⟩
      · exact ⟨r, _, hr, hm r (Listing.mem_of_firstOfKind? hr), hfiles⟩
      · intro hset r m r' m' hr hmr hr' hmr'
        have hagree := hcross hset r r' hr hr'
        rw [hmr, hmr'] at hagree
        exact hagree
    · rintro ⟨-, hsingle, hid, href, ⟨r, m, hr, hmr, hfiles⟩, hcross⟩
      refine ⟨⟨hsingle, hid⟩, ⟨r, hr, ?_⟩, ?_, ?_⟩
      · rw [hmr]
        exact hfiles
      · intro hset r r' hr hr'
        exact hcross hset r _ r' _ hr (hm r (Listing.mem_of_firstOfKind? hr)) hr'
          (hm r' (Listing.mem_of_firstOfKind? hr'))
      · intro i r hr reference hmem
        obtain ⟨j, other, found, hj, ho, hfound, hid⟩ :=
          href i r _ hr (hm r (List.mem_of_getElem? hr)) reference hmem
        refine ⟨j, other, hj, ho, ?_⟩
        rw [hfound]
        exact hid
  · refine iff_of_false (fun h => hread fun r hr => ?_) fun h => hread h.readable
    obtain ⟨m, hm, -⟩ := h.1.2 r hr
    exact ⟨m, hm⟩

/-- The audit of a container stops where the listing is missing or cannot be read. -/
theorem Directory.auditContainer_eq (d : Directory) (settings : Settings) (dir : String) :
    auditContainer d.files settings dir =
      let path := Path.join dir Listing.fileName
      let start : Outcome := { inputs := [path] }
      match d.read path with
      | .error failure => start.report [unreadableFile path failure]
      | .ok source =>
        match readListing source with
        | .error e => start.report [invalidManifest Listing.fileName e]
        | .ok listing => auditListing d.files settings dir start listing := rfl

/-- The smallest container that is in order: an empty block with its manifest and its listing. -/
def emptyBlockContainer : Directory where
  content path :=
    if path = "c/__content.xml" then
      .text "<Content><ModelRepresentation kind='AlgorithmCode' name='A' manifest='m.xml'/></Content>"
    else if path = "c/A/m.xml" then
      .text "<Manifest id='a'><Files><File name='b.alg' role='Code'/></Files></Manifest>"
    else if path = "c/A/b.alg" then .text "block B\nprotected\npublic\nend B;"
    else .absent (.system "No such file or directory" 2)

example : Outcome.hasErrors (auditContainer emptyBlockContainer.files {} "c") = false := by
  decide +kernel

end GalecAudit
