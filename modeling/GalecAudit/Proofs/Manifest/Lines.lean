import GalecAudit.Proofs.Manifest.Extraction
import GalecAudit.Proofs.Manifest.Sound
import GalecAudit.Proofs.Markup.Reading

/-!
# Lines of what is read

What a manifest lists stands at certain places of its document, and so does what a container lists. Each
variable, file, reference and representation is recorded with the line of the opening bracket of its
element, whatever other elements, texts, comments and the like stand around it.
-/
namespace GalecAudit

open Markup (Event IsWritten Node Part Tree dropMark)

namespace Markup.Node

def childrenNamed (n : Node) (name : String) : List Node := n.children.filter (·.name = name)

/-- Whether an element in the list of variables stands for a variable. -/
def IsVariable (n : Node) : Prop :=
  n.name ∈ ["RealVariable", "IntegerVariable", "BooleanVariable", "Variable"]

instance : DecidablePred IsVariable := fun n => inferInstanceAs (Decidable (n.name ∈ _))

/-- The elements of the variables: those of the first list of variables directly below the root. -/
def variableNodes (root : Node) : List Node :=
  ((root.childrenNamed "Variables").take 1).flatMap fun list => list.children.filter IsVariable

def fileNodes (root : Node) : List Node :=
  (root.childrenNamed "Files").flatMap (·.childrenNamed "File")

def referenceNodes (root : Node) : List Node :=
  (root.childrenNamed "ManifestReferences").flatMap (·.childrenNamed "ManifestReference")

/-- The elements of representations, at any depth. -/
def representationNodes (root : Node) : List Node :=
  root.all.filter (·.name = "ModelRepresentation")

section Trees

variable (n root : Node)

theorem childrenNamed_tree (name : String) :
    n.tree.childrenNamed name = (n.childrenNamed name).map tree := by
  rw [Tree.childrenNamed, children_tree, treesOf_eq_map, childrenNamed, List.filter_map]
  simp [Function.comp_def]

theorem variableElements_tree : root.tree.variableElements = root.variableNodes.map tree := by
  have hvariables (list : Node) : list.tree.children.filter Tree.IsVariable =
      (list.children.filter IsVariable).map tree := by
    rw [children_tree, treesOf_eq_map, List.filter_map]
    simp [Function.comp_def, Tree.IsVariable, IsVariable]
  rw [Tree.variableElements, variableNodes, childrenNamed_tree, ← List.map_take, List.flatMap_map,
    List.map_flatMap]
  simp only [hvariables]

theorem fileElements_tree : root.tree.fileElements = root.fileNodes.map tree := by
  rw [Tree.fileElements, fileNodes, childrenNamed_tree, List.flatMap_map, List.map_flatMap]
  simp only [childrenNamed_tree]

theorem referenceElements_tree : root.tree.referenceElements = root.referenceNodes.map tree := by
  rw [Tree.referenceElements, referenceNodes, childrenNamed_tree, List.flatMap_map, List.map_flatMap]
  simp only [childrenNamed_tree]

end Trees

section Places

variable {n root : Node}

/-- Two levels below the root is inside it. -/
theorem mem_all_of_list {p q : Node → Bool} {lists : List Node}
    (hlists : lists.Sublist (root.children.filter p))
    (hn : n ∈ lists.flatMap fun list => list.children.filter q) : n ∈ root.all := by
  obtain ⟨list, hlist, hmem⟩ := List.mem_flatMap.1 hn
  have hchild := (List.mem_filter.1 (hlists.subset hlist)).1
  exact mem_all_of_child hchild (mem_all_of_child (List.mem_filter.1 hmem).1 n.self_mem_all)

theorem mem_all_of_variableNodes (h : n ∈ root.variableNodes) : n ∈ root.all :=
  mem_all_of_list (List.take_sublist 1 _) h

theorem mem_all_of_fileNodes (h : n ∈ root.fileNodes) : n ∈ root.all :=
  mem_all_of_list (List.Sublist.refl _) h

theorem mem_all_of_referenceNodes (h : n ∈ root.referenceNodes) : n ∈ root.all :=
  mem_all_of_list (List.Sublist.refl _) h

end Places

end Markup.Node

/-- The representation of an element that has a kind, a name and a manifest. -/
def Markup.Tree.asRepresentation (t : Tree) : Representation where
  kind := (t.attribute? "kind").getD ""
  name := (t.attribute? "name").getD ""
  manifest := String.ofList (Listing.dropCurrent ((t.attribute? "manifest").getD "").toList)
  checksum := t.attribute? "checksum"
  manifestId := t.attribute? "manifestRefId"
  line := t.line

section Written

variable {source : String} {parts : List Part} {trailing : List Char} {root : Node}

/-- What is read of a written source is read of the tree of its root. -/
theorem foldlM_of_isWritten {σ : Type} {step : σ → Event → Except ManifestError σ}
    (hstep : KeepsSound step)
    (h : IsWritten source parts trailing) (hroot : Part.nodesOfAll [] parts = [root]) {s final : σ}
    (hfold : foldEvents step s (Markup.readEvents source) = .ok final) :
    (root.tree.events none 0).foldlM step s = .ok final := by
  obtain ⟨hrun, hfault⟩ := foldlM_of_foldEvents hfold
  have hevents : (Markup.readEvents source).items.map Event.sound = root.tree.events none 0 := by
    rw [Markup.items_readEvents h hfault, hroot]
    exact List.append_nil _
  rw [← hevents]
  exact foldlM_sound hstep hrun

/-- A manifest that is read is that of the tree of the root. -/
theorem readManifest_of_isWritten (h : IsWritten source parts trailing)
    (hroot : Part.nodesOfAll [] parts = [root]) {m : Manifest} (hm : readManifest source = .ok m) :
    m = root.tree.manifest := by
  unfold readManifest Manifest.ofEvents at hm
  cases hfold : foldEvents ManifestDraft.step {} (Markup.readEvents source) with
  | error e => rw [hfold] at hm; cases hm
  | ok final =>
    rw [hfold] at hm
    obtain ⟨d, hd, hleads⟩ := ManifestDraft.leads_root root.tree
    have hrun := foldlM_of_isWritten ManifestDraft.keepsSound_step h hroot hfold
    obtain ⟨-, rfl⟩ := (hleads final).1 hrun
    exact (Except.ok.inj hm).symm.trans hd

theorem readRepresentation_element {t : Tree} {parent : Option String} {depth : Nat}
    {r : Representation} (h : Listing.readRepresentation (t.element parent depth) = .ok r) :
    r = t.asRepresentation := by
  unfold Listing.readRepresentation at h
  simp only [bind_eq_ok_iff, Tree.required_element_eq_ok_iff, Tree.optional_element,
    Except.ok.injEq, exists_eq_left'] at h
  obtain ⟨manifest, hmanifest, kind, hkind, name, hname, hr⟩ := h
  rw [Tree.asRepresentation, hmanifest, hkind, hname]
  exact (Except.ok.inj hr).symm

theorem representations_opening {t : Tree} {parent : Option String} {depth : Nat}
    {l next : Listing} (h : l.step (.opening (t.element parent depth)) = .ok next) :
    next.representations =
      l.representations ++ if t.name = "ModelRepresentation" then [t.asRepresentation] else [] := by
  rcases Listing.step_opening_eq_ok_iff.1 h with
    ⟨(hname : t.name = "ModelRepresentation"), r, hr, rfl⟩ | ⟨(hname : t.name ≠ _), rfl⟩
  · rw [if_pos hname, readRepresentation_element hr]
  · rw [if_neg hname, List.append_nil]

mutual
/-- The representations of a node are those of the elements in it that have their name. -/
theorem representations_events (n : Node) {parent : Option String} {depth : Nat}
    {l final : Listing} (h : (n.tree.events parent depth).foldlM Listing.step l = .ok final) :
    final.representations = l.representations ++
      (n.all.filter (·.name = "ModelRepresentation")).map fun n => n.tree.asRepresentation := by
  cases n with
  | node before tag children =>
    let n := Node.node before tag children
    rw [Tree.events_eq, List.foldlM_cons, bind_eq_ok_iff] at h
    obtain ⟨opened, hopen, h⟩ := h
    rw [List.foldlM_append, bind_eq_ok_iff] at h
    obtain ⟨next, hinside, hclose⟩ := h
    cases hclose
    rw [Node.children_tree] at hinside
    rw [representations_eventsOfAll children hinside, representations_opening hopen, Node.name_tree,
      Node.all]
    by_cases hname : n.name = "ModelRepresentation"
    · rw [if_pos hname, List.filter_cons_of_pos (by simpa using hname)]
      simp
    · rw [if_neg hname, List.filter_cons_of_neg (by simpa using hname)]
      simp

theorem representations_eventsOfAll (ns : List Node) {parent : Option String} {depth : Nat}
    {l final : Listing}
    (h : (Tree.eventsOfAll parent depth (Node.treesOf ns)).foldlM Listing.step l = .ok final) :
    final.representations = l.representations ++
      ((Node.allOf ns).filter (·.name = "ModelRepresentation")).map
        fun n => n.tree.asRepresentation := by
  cases ns with
  | nil =>
    cases h
    exact (List.append_nil _).symm
  | cons n ns =>
    rw [Node.treesOf, Tree.eventsOfAll, List.foldlM_append, bind_eq_ok_iff] at h
    obtain ⟨next, hfirst, hrest⟩ := h
    rw [representations_eventsOfAll ns hrest, representations_events n hfirst, Node.allOf,
      List.filter_append, List.map_append, List.append_assoc]
end

end Written

/-- A value is recorded for a node of a document: it is what the element of the node states, and its line
is one more than the number of line feeds before the opening bracket of the tag. -/
structure RecordedAt {α : Type} (document : List Char) (value : Tree → α) (line : α → Nat) (a : α)
    (n : Node) : Prop where
  stands : n.before ++ '<' :: n.tag.text <+: document
  value : a = value n.tree
  line : line a = 1 + n.before.count '\n'

theorem recordedAt_map {α : Type} {document : List Char} {value : Tree → α} {line : α → Nat}
    {ns : List Node} (hstands : ∀ n ∈ ns, n.StandsIn document) (hline : ∀ t, line (value t) = t.line) :
    List.Forall₂ (RecordedAt document value line) (ns.map fun n => value n.tree) ns := by
  rw [List.forall₂_map_left_iff, List.forall₂_same]
  exact fun n hn => ⟨hstands n hn, rfl, (hline n.tree).trans n.line_tree⟩

/-- In a document that is written with at most one mark of the byte order, with any texts, comments,
sections of character data, instructions and document types around its tags, everything that is read is
recorded for its element, in the order of the document, with the line of the opening bracket of the
element: the variables of the first list of variables, the files, the references, and the
representations. -/
theorem recordedLines_exact {source : String} {parts : List Part} {trailing : List Char} {root : Node}
    (h : IsWritten source parts trailing) (hroot : Part.nodesOfAll [] parts = [root]) :
    (∀ m, readManifest source = .ok m →
      List.Forall₂ (RecordedAt (dropMark source.toList) Tree.asVariable ListedVariable.line)
        m.listed root.variableNodes ∧
      List.Forall₂ (RecordedAt (dropMark source.toList) Tree.asFile ListedFile.line)
        m.files root.fileNodes ∧
      List.Forall₂ (RecordedAt (dropMark source.toList) Tree.asReference ManifestReference.line)
        m.references root.referenceNodes) ∧
    ∀ l, readListing source = .ok l →
      List.Forall₂ (RecordedAt (dropMark source.toList) Tree.asRepresentation Representation.line)
        l.representations root.representationNodes := by
  have hstands : ∀ n ∈ root.all, n.StandsIn (dropMark source.toList) := fun n hn =>
    Markup.standsIn_of_isWritten h (by rw [hroot]; exact Node.mem_allOf List.mem_cons_self hn)
  constructor
  · intro m hm
    rw [readManifest_of_isWritten h hroot hm, Tree.manifest, Node.variableElements_tree,
      Node.fileElements_tree, Node.referenceElements_tree, List.map_map, List.map_map, List.map_map]
    refine ⟨recordedAt_map (fun n hn => ?_) fun _ => rfl, recordedAt_map (fun n hn => ?_) fun _ => rfl,
      recordedAt_map (fun n hn => ?_) fun _ => rfl⟩
    · exact hstands n (Node.mem_all_of_variableNodes hn)
    · exact hstands n (Node.mem_all_of_fileNodes hn)
    · exact hstands n (Node.mem_all_of_referenceNodes hn)
  · intro l hl
    have hrun := foldlM_of_isWritten Listing.keepsSound_step h hroot hl
    rw [representations_events root hrun]
    exact recordedAt_map (fun n hn => hstands n (List.mem_filter.1 hn).1) fun _ => rfl

/-- The lines of a document with constructs of all kinds that hold tags of their own, with texts, and with
tags that go over several lines. -/
def layeredLines : List String :=
  ["<?note <Files/ ?><!DOCTYPE M [",
    "<!ELEMENT M ANY>]><!-- <Variables>",
    "<Variable/></Variables> --><M",
    "id='m'>text <Variables>",
    "  <RealVariable name='x'",
    "  ><Dimensions><Dimension size='2'/>",
    "</Dimensions></RealVariable><![CDATA[",
    "<Variable/>]]><Variable",
    "name='y' type='Integer'/></Variables>",
    "<Files> <!-- <File name='a'/>",
    "--><File name='b'/></Files><Variables>",
    "<Variable/></Variables>",
    "<ManifestReferences><ManifestReference",
    "manifestRefId='r'/></ManifestReferences",
    ">more <ModelRepresentation",
    "name='n' kind='k' manifest='c.xml'/></M>"]

/-- The document behind a mark of the byte order. -/
def layeredSource : String :=
  String.ofList ('\ufeff' :: layeredLines.flatMap fun line => line.toList ++ ['\n'])

/-- A tag whose attributes have blanks before them and none inside. -/
def layeredTag (name : String) (attributes : List (String × String × String)) (blanks : String) :
    Markup.WrittenTag :=
  ⟨name.toList, attributes.map fun (lead, key, value) =>
    ⟨lead.toList, key.toList, [], [], '\x27', value.toList⟩, blanks.toList⟩

/-- How the document is written. -/
def layeredParts : List Part :=
  let elements (name : String) (gap : String) (inside : List Part) (endBlanks : String) : Part :=
    .pair gap.toList (layeredTag name [] "") inside [] endBlanks.toList
  [.aside [] (.instruction "note <Files/ ".toList),
    .aside [] (.documentType " M [\n<!ELEMENT M ANY>]".toList),
    .aside [] (.comment " <Variables>\n<Variable/></Variables> ".toList),
    .pair [] (layeredTag "M" [("\n", "id", "m")] "")
      [elements "Variables" "text "
          [.pair "\n  ".toList (layeredTag "RealVariable" [(" ", "name", "x")] "\n  ")
            [.pair [] (layeredTag "Dimensions" [] "")
              [.empty [] (layeredTag "Dimension" [(" ", "size", "2")] "")] "\n".toList []] [] [],
          .aside [] (.characterData "\n<Variable/>".toList),
          .empty [] (layeredTag "Variable" [("\n", "name", "y"), (" ", "type", "Integer")] "")] "",
        elements "Files" "\n"
          [.aside " ".toList (.comment " <File name='a'/>\n".toList),
          .empty [] (layeredTag "File" [(" ", "name", "b")] "")] "",
        elements "Variables" "" [.empty "\n".toList (layeredTag "Variable" [] "")] "",
        elements "ManifestReferences" "\n"
          [.empty [] (layeredTag "ManifestReference" [("\n", "manifestRefId", "r")] "")] "\n",
        .empty "more ".toList (layeredTag "ModelRepresentation"
          [("\n", "name", "n"), (" ", "kind", "k"), (" ", "manifest", "c.xml")] "")] [] []]

theorem isWritten_layeredSource : IsWritten layeredSource layeredParts ['\n'] where
  oneMark := by
    rw [layeredSource, String.toList_ofList]
    decide +kernel
  spelled := by
    rw [layeredSource, String.toList_ofList]
    decide +kernel
  proper := by decide +kernel
  plain := by decide

theorem readManifest_layeredSource : readManifest layeredSource = .ok
    { id := some "m"
      listed := [⟨"x", .real, .unspecified, [2], 5⟩, ⟨"y", .integer, .unspecified, [], 8⟩]
      files := [⟨"b", none, 11⟩]
      references := [⟨"", "r", none, 13⟩] } := by
  rw [readManifest, Markup.readEvents, layeredSource, String.toList_ofList]
  decide +kernel

theorem readListing_layeredSource :
    readListing layeredSource = .ok ⟨[⟨"k", "n", "c.xml", none, none, 15⟩]⟩ := by
  rw [readListing, Markup.readEvents, layeredSource, String.toList_ofList]
  decide +kernel

/-- Lines are counted through what the constructs hold, and the tags in these are no elements. -/
theorem recordedLines_layeredSource : ∃ m l root, Part.nodesOfAll [] layeredParts = [root] ∧
    readManifest layeredSource = .ok m ∧ readListing layeredSource = .ok l ∧
    m.listed.map (fun v => (v.name, v.line)) = [("x", 5), ("y", 8)] ∧
    m.files.map (fun f => (f.name, f.line)) = [("b", 11)] ∧
    m.references.map (fun r => (r.target, r.line)) = [("r", 13)] ∧
    l.representations.map (fun r => (r.name, r.line)) = [("n", 15)] ∧
    List.Forall₂ (RecordedAt (dropMark layeredSource.toList) Tree.asVariable ListedVariable.line)
      m.listed root.variableNodes ∧
    List.Forall₂ (RecordedAt (dropMark layeredSource.toList) Tree.asFile ListedFile.line)
      m.files root.fileNodes ∧
    List.Forall₂ (RecordedAt (dropMark layeredSource.toList) Tree.asReference ManifestReference.line)
      m.references root.referenceNodes ∧
    List.Forall₂
      (RecordedAt (dropMark layeredSource.toList) Tree.asRepresentation Representation.line)
      l.representations root.representationNodes := by
  obtain ⟨root, hroot⟩ : ∃ root, Part.nodesOfAll [] layeredParts = [root] := ⟨_, rfl⟩
  obtain ⟨hmanifest, hlisting⟩ := recordedLines_exact isWritten_layeredSource hroot
  obtain ⟨hlisted, hfiles, hreferences⟩ := hmanifest _ readManifest_layeredSource
  exact ⟨_, _, root, hroot, readManifest_layeredSource, readListing_layeredSource, rfl, rfl, rfl, rfl,
    hlisted, hfiles, hreferences, hlisting _ readListing_layeredSource⟩

end GalecAudit
