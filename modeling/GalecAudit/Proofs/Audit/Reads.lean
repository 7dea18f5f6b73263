import GalecAudit.Proofs.Audit.Verdict
import GalecAudit.Proofs.Container.Listing

/-!
# What an audit reads

The paths that an audit reads, in the order in which it reads them. The audit of a container reads the
listing, then a manifest for each representation, then sources of one of them. The manifest of a
representation is where the listing says, seen from the directory of the representation, unless the path in
the listing hides a slash behind dots.
-/
namespace GalecAudit

/-- Access to the files of a directory that keeps the paths that are read. -/
def Directory.loggedFiles (d : Directory) : FileAccess (StateM (List String)) where
  read path := fun log => (d.read path, log ++ [path])
  isThere path := fun log => (d.isThere path, log)
  write _ _ := fun log => (.error (.system "Read-only file system" 30), log)

/-- The computation gives a value and reads the paths, whatever has been read before. -/
def Logs {α : Type} (p : StateM (List String) α) (a : α) (paths : List String) : Prop :=
  ∀ log, p.run log = (a, log ++ paths)

section Combinators

variable {α β : Type} {p : StateM (List String) α} {a : α} {b : β} {paths others : List String}

theorem logs_pure (a : α) : Logs (pure a) a [] := fun log => by
  rw [List.append_nil]
  rfl

theorem Logs.bind {f : α → StateM (List String) β} (hp : Logs p a paths)
    (hf : Logs (f a) b others) : Logs (p >>= f) b (paths ++ others) := by
  intro log
  rw [StateT.run_bind, hp, ← List.append_assoc, ← hf]
  rfl

theorem Logs.map (hp : Logs p a paths) (f : α → β) :
    Logs (p >>= fun a => pure (f a)) (f a) paths := by
  rw [← List.append_nil paths]
  exact hp.bind (logs_pure (f a))

theorem Logs.mapM {f : α → StateM (List String) β} {g : α → β} {reads : α → List String}
    (h : ∀ a, Logs (f a) (g a) (reads a)) (l : List α) :
    Logs (l.mapM f) (l.map g) (l.flatMap reads) := by
  induction l with
  | nil => exact logs_pure []
  | cons a l ih =>
    rw [List.mapM_cons]
    exact (h a).bind (ih.map _)

end Combinators

variable {d : Directory} {settings : Settings} {dir : String} {listing : Listing}

theorem logs_read (path : String) : Logs (d.loggedFiles.read path) (d.read path) [path] :=
  fun _ => rfl

theorem logs_isThere (path : String) : Logs (d.loggedFiles.isThere path) (d.isThere path) [] :=
  fun log => by
    rw [List.append_nil]
    rfl

section Sources

/-- A source is read if there is something at its path. -/
theorem logs_auditFile (manifestPath : String) (table : VariableTable) (path : String) :
    Logs (auditFile d.loggedFiles settings manifestPath table path)
      (auditFile d.files settings manifestPath table path) ([path].filter d.isThere) := by
  have hfile : auditFile d.files settings manifestPath table path =
      if d.isThere path = true then outcomeOfSource settings table path (d.read path)
      else { diagnostics := [missingSource manifestPath path] } := rfl
  have hpaths : [path].filter d.isThere = [] ++ if d.isThere path = true then [path] else [] := by
    rw [List.nil_append, List.filter_cons, List.filter_nil]
  rw [hfile, hpaths]
  refine (logs_isThere path).bind ?_
  split
  · exact (logs_read path).map _
  · exact logs_pure _

theorem logs_auditSources (path : String) (m : Manifest) (given : List String) :
    Logs (auditSources d.loggedFiles settings path m given)
      (auditSources d.files settings path m given) ((sourcePaths path m given).filter d.isThere) := by
  unfold auditSources
  dsimp only
  split
  · next hnone =>
    rw [hnone]
    exact logs_pure _
  · have hpaths : (sourcePaths path m given).filter d.isThere =
        (sourcePaths path m given).flatMap fun file => [file].filter d.isThere := by
      rw [← List.filter_flatMap, List.flatMap_singleton']
    rw [mapM_id, hpaths]
    exact (Logs.mapM (logs_auditFile path _) _).map Outcome.sequence

/-- The paths of the sources that the audit of the algorithm representation reads. -/
def Directory.algorithmReads (d : Directory) (settings : Settings) (loaded : List Loaded) :
    List String :=
  match loaded.findSome? (Loaded.ofKind? settings.algorithmLabel) with
  | some (path, m) => (sourcePaths path m []).filter d.isThere
  | none => []

theorem logs_auditAlgorithm (listing : Listing) (loaded : List Loaded) :
    Logs (auditAlgorithm d.loggedFiles settings listing loaded)
      (auditAlgorithm d.files settings listing loaded) (d.algorithmReads settings loaded) := by
  unfold auditAlgorithm Directory.algorithmReads
  cases loaded.findSome? (Loaded.ofKind? settings.algorithmLabel) with
  | some found => exact logs_auditSources _ _ _
  | none =>
    dsimp only
    split <;> exact logs_pure _

end Sources

section Containers

theorem logs_loadRepresentation (r : Representation) :
    Logs (loadRepresentation d.loggedFiles dir r) (d.load dir r) [r.manifestPath dir] :=
  ((logs_read (r.manifestPath dir)).map (manifestOf (r.manifestPath dir))).map _

/-- Every manifest of a listing is read, in its order, before the first source. -/
theorem logs_auditListing (start : Outcome) (listing : Listing) :
    Logs (auditListing d.loggedFiles settings dir start listing)
      (auditListing d.files settings dir start listing)
      (listing.representations.map (Representation.manifestPath dir) ++
        d.algorithmReads settings (d.loadAll dir listing)) := by
  have hl : listing.representations.mapM (loadRepresentation d.files dir) =
      d.loadAll dir listing := mapM_id _ _
  unfold auditListing
  rw [hl, List.map_eq_flatMap]
  exact (Logs.mapM logs_loadRepresentation _).bind ((logs_auditAlgorithm listing _).map _)

/-- The paths that the audit of a container reads, in this order. -/
def Directory.reads (d : Directory) (settings : Settings) (dir : String) : List String :=
  ((auditContainer d.loggedFiles settings dir).run []).2

theorem Directory.reads_of_listing {source : String}
    (hthere : d.read (Path.join dir Listing.fileName) = .ok source)
    (hread : readListing source = .ok listing) :
    d.reads settings dir = Path.join dir Listing.fileName ::
      (listing.representations.map (Representation.manifestPath dir) ++
        d.algorithmReads settings (d.loadAll dir listing)) := by
  have hlog : Logs (auditContainer d.loggedFiles settings dir)
      (auditListing d.files settings dir { inputs := [Path.join dir Listing.fileName] } listing)
      ([Path.join dir Listing.fileName] ++ (listing.representations.map (Representation.manifestPath dir) ++
        d.algorithmReads settings (d.loadAll dir listing))) := by
    unfold auditContainer
    refine (logs_read _).bind ?_
    rw [hthere]
    dsimp only
    rw [hread]
    exact logs_auditListing _ _
  unfold reads
  rw [hlog]
  rfl

/-- A path from a listing, seen from a directory, is kept and read for the same place exactly where it
hides no slash. Where it hides one, what is kept is an absolute path and the directory is dropped. -/
theorem route_of_dropCurrent {written kept : String} (dir : String)
    (hkept : kept = String.ofList (Listing.dropCurrent written.toList)) :
    (¬ HidesSlash written.toList → Path.isAbsolute kept.toList = false ∧
      Path.route kept.toList = Path.route written.toList ∧
      Path.route (Path.join dir kept).toList = Path.route (Path.join dir written).toList) ∧
    (HidesSlash written.toList → Path.isAbsolute kept.toList = true ∧ Path.join dir kept = kept) := by
  have htext : kept.toList = Listing.dropCurrent written.toList := by
    rw [hkept, String.toList_ofList]
  have hnames : Path.names kept.toList = Path.names written.toList := by
    rw [htext, names_dropCurrent]
  constructor
  · intro hslash
    have hrelative : Path.isAbsolute kept.toList = false := by
      rw [← Bool.not_eq_true, htext, isAbsolute_dropCurrent_iff]
      exact hslash
    have hwritten : Path.isAbsolute written.toList = false := by
      rw [← Bool.not_eq_true, Path.isAbsolute_iff]
      exact fun ⟨rest, hrest⟩ => hslash ⟨0, rest, hrest⟩
    refine ⟨hrelative, ?_, ?_⟩
    · rw [Path.route, Path.route, hrelative, hwritten, hnames]
    · rw [Path.toList_join, Path.toList_join, Path.route_joinChars hrelative,
        Path.route_joinChars hwritten, hnames]
  · intro hslash
    have habsolute : Path.isAbsolute kept.toList = true := by
      rw [htext, isAbsolute_dropCurrent_iff]
      exact hslash
    refine ⟨habsolute, ?_⟩
    rw [Path.join, Path.joinChars_of_isAbsolute habsolute, String.ofList_toList]

/-- The manifest of each representation is read in its turn. The place where it is read is the one that
its path denotes from the directory of the representation, and what is kept of the path is relative,
unless the path hides a slash behind dots: then what is kept is absolute, and that place is read wherever
the container is. -/
theorem Directory.reads_manifest_exact {source : String} {e : Markup.Element} {i : Nat}
    (hthere : d.read (Path.join dir Listing.fileName) = .ok source)
    (hread : readListing source = .ok listing)
    (he : (representationElements source)[i]? = some e) :
    ∃ r written, listing.representations[i]? = some r ∧ e.required "name" = .ok r.name ∧
      e.required "manifest" = .ok written ∧
      (d.reads settings dir)[i + 1]? = some (r.manifestPath dir) ∧
      (¬ HidesSlash written.toList → Path.isAbsolute r.manifest.toList = false ∧
        Path.route r.manifest.toList = Path.route written.toList ∧
        Path.route (r.manifestPath dir).toList =
          Path.route (Path.join (Path.join dir r.name) written).toList) ∧
      (HidesSlash written.toList → Path.isAbsolute r.manifest.toList = true ∧
        r.manifestPath dir = r.manifest) := by
  have hall := representations_of_readListing hread
  obtain ⟨hi, rfl⟩ := List.getElem?_eq_some_iff.1 he
  have hlength : i < listing.representations.length := hall.length_eq ▸ hi
  obtain ⟨hname, written, hwritten, hkept⟩ := readRepresentation_eq_ok (hall.get hi hlength)
  refine ⟨listing.representations[i], written, List.getElem?_eq_getElem hlength, hname, hwritten, ?_,
    route_of_dropCurrent _ hkept⟩
  rw [reads_of_listing hthere hread, List.getElem?_cons_succ,
    List.getElem?_append_left (by rwa [List.length_map]), List.getElem?_map,
    List.getElem?_eq_getElem hlength, Option.map_some]

end Containers

/-- A listing with a path that hides a slash, and one with dots and slashes that hides none. -/
def dottedListing : String := "<Content>
<ModelRepresentation kind='AlgorithmCode' name='A' manifest='.//m.xml'/>
<ModelRepresentation kind='EquationCode' name='B' manifest='././n//./m.xml'/>
</Content>"

def dottedContainer : Directory where
  content path :=
    if path = "c/__content.xml" then .text dottedListing
    else .absent (.system "No such file or directory" 2)

theorem readListing_dottedListing : readListing dottedListing = .ok
    ⟨[⟨"AlgorithmCode", "A", "/m.xml", none, none, 2⟩,
      ⟨"EquationCode", "B", "n//./m.xml", none, none, 3⟩]⟩ := by
  have hread : (readListing dottedListing).toOption = some
      ⟨[⟨"AlgorithmCode", "A", "/m.xml", none, none, 2⟩,
        ⟨"EquationCode", "B", "n//./m.xml", none, none, 3⟩]⟩ := by
    decide +kernel
  cases h : readListing dottedListing with
  | error e =>
    rw [h] at hread
    cases hread
  | ok listing =>
    rw [h] at hread
    rw [Option.some.inj hread]

theorem representationElements_dottedListing : representationElements dottedListing =
    [⟨"ModelRepresentation", some "Content", 1, ⟨[("kind", "AlgorithmCode".toList),
        ("name", ['A']), ("manifest", ".//m.xml".toList)], none⟩, 2⟩,
      ⟨"ModelRepresentation", some "Content", 1, ⟨[("kind", "EquationCode".toList),
        ("name", ['B']), ("manifest", "././n//./m.xml".toList)], none⟩, 3⟩] := by
  decide +kernel

theorem reads_manifest_dottedContainer :
    dottedContainer.read (Path.join "c" Listing.fileName) = .ok dottedListing ∧
      ∃ listing e, readListing dottedListing = .ok listing ∧
        (representationElements dottedListing)[1]? = some e ∧
        ∃ r written, listing.representations[1]? = some r ∧ e.required "name" = .ok r.name ∧
          e.required "manifest" = .ok written ∧
          (dottedContainer.reads {} "c")[2]? = some (r.manifestPath "c") ∧
          (¬ HidesSlash written.toList → Path.isAbsolute r.manifest.toList = false ∧
            Path.route r.manifest.toList = Path.route written.toList ∧
            Path.route (r.manifestPath "c").toList =
              Path.route (Path.join (Path.join "c" r.name) written).toList) ∧
          (HidesSlash written.toList → Path.isAbsolute r.manifest.toList = true ∧
            r.manifestPath "c" = r.manifest) := by
  have hthere : dottedContainer.read (Path.join "c" Listing.fileName) = .ok dottedListing := rfl
  have helement := congrArg (·[1]?) representationElements_dottedListing
  exact ⟨hthere, _, _, readListing_dottedListing, helement,
    Directory.reads_manifest_exact hthere readListing_dottedListing helement⟩

/-- A relative path of the listing that is kept as an absolute one, which is what the audit reads. -/
theorem absolute_manifest_of_dottedContainer :
    ∃ listing e r written, readListing dottedListing = .ok listing ∧
      (representationElements dottedListing)[0]? = some e ∧ e.required "manifest" = .ok written ∧
      Path.isAbsolute written.toList = false ∧ listing.representations[0]? = some r ∧
      Path.isAbsolute r.manifest.toList = true ∧
      dottedContainer.reads {} "c" = ["c/__content.xml", "/m.xml", "c/B/n//./m.xml"] := by
  have helement := congrArg (·[0]?) representationElements_dottedListing
  have hreads : dottedContainer.reads {} "c" =
      ["c/__content.xml", "/m.xml", "c/B/n//./m.xml"] := by
    rw [Directory.reads_of_listing rfl readListing_dottedListing]
    decide +kernel
  exact ⟨_, _, _, ".//m.xml", readListing_dottedListing, helement, by decide +kernel, rfl, rfl, rfl,
    hreads⟩

end GalecAudit
