import GalecAudit.Proofs.Manifest.Draft

/-!
# What is extracted from a manifest

The reader follows the events of a document with a few marks: whether the list of variables has been
found, whether it is open, and which variable is open. On the tree of the document these marks say where
an element stands. So the manifest is made of the elements at certain places of the tree, in the order of
the document, and it can be read exactly if these elements have what they need.
-/
namespace GalecAudit

open Markup (Tree)

namespace ManifestDraft

open Markup.Tree

variable {d : ManifestDraft} {t : Tree} {ts : List Tree} {parent : Option String} {depth : Nat}

section Listed

/-- The element of a variable has all that its variable needs. -/
def IsWhole (t : Tree) : Prop := t.IsTyped ∧ ∀ x ∈ t.sizeElements, x.size?.isSome = true

theorem sizeElements_eq (t : Tree) :
    t.sizeElements = sizesAmong (descendantsOfAll t.name t.children) := by
  cases t
  rfl

theorem opening_of_listed (hd : d.Idle true) (r : ManifestDraft) :
    d.opening (t.element parent 2) = .ok r ↔ (t.IsVariable → t.IsTyped) ∧
      r = { d with current :=
        if t.IsVariable then some { t.asVariable with dimensions := [] } else none } := by
  have hrole : d.roleOf (t.element parent 2) = .listed := by simp [roleOf, element, hd.1]
  have hsame : { d with current := none } = d := by
    cases d
    simp_all [Idle]
  unfold opening
  rw [hrole]
  simp only [bind_eq_ok_iff, readVariable?_eq_ok_iff, and_assoc, exists_and_left, exists_eq_left]
  refine and_congr_right fun _ => ?_
  by_cases hv : t.IsVariable
  · simp only [if_pos hv, return_eq_ok_iff]
  · simp only [if_neg hv, return_eq_ok_iff, hsame]

/-- An element in the list of variables enters the variable that it stands for, if it is one. -/
theorem leads_listed (hd : d.Idle true) : d.Leads (t.events parent 2) (t.IsVariable → IsWhole t)
    (d.enter (if t.IsVariable then [t.asVariable] else []) [] []) := by
  have hinside := leads_eventsOfAll_of_deep t.name (Nat.le_refl 3)
    { d with current := if t.IsVariable then some { t.asVariable with dimensions := [] } else none }
    t.children
  refine (leads_events (opening_of_listed hd) hinside).congr ?_ ?_
  · by_cases hv : t.IsVariable <;> simp [hv, CanAdd, IsWhole, sizeElements_eq]
  · by_cases hv : t.IsVariable <;>
      simp_all [Idle, closing, addSizes, enter, asVariable, sizeElements_eq]

end Listed

section Stored

/-- Among the children of an element, those that list a file or a reference. -/
def filesAt (parent : String) (t : Tree) : List Tree :=
  if parent = "Files" ∧ t.name = "File" then [t] else []

def referencesAt (parent : String) (t : Tree) : List Tree :=
  if parent = "ManifestReferences" ∧ t.name = "ManifestReference" then [t] else []

/-- Files have a name, and references a target. -/
def AreStored (files references : List Tree) : Prop :=
  (∀ t ∈ files, (t.attribute? "name").isSome = true) ∧
    ∀ t ∈ references, (t.attribute? "manifestRefId").isSome = true

theorem readFile_eq_ok_iff {file : ListedFile} : readFile (t.element parent depth) = .ok file ↔
    (t.attribute? "name").isSome = true ∧ file = t.asFile := by
  unfold readFile
  simp only [bind_eq_ok_iff, required_element_eq_ok_iff, optional_element, return_eq_ok_iff,
    Except.ok.injEq, exists_eq_left', asFile]
  cases t.attribute? "name" <;> simp [element]

theorem readReference_eq_ok_iff {reference : ManifestReference} :
    readReference (t.element parent depth) = .ok reference ↔
      (t.attribute? "manifestRefId").isSome = true ∧ reference = t.asReference := by
  unfold readReference
  simp only [bind_eq_ok_iff, required_element_eq_ok_iff, optional_element, return_eq_ok_iff,
    Except.ok.injEq, exists_eq_left', asReference]
  cases t.attribute? "manifestRefId" <;> simp [element]

theorem opening_of_stored {parent : String} (hd : d.Idle false) (r : ManifestDraft) :
    d.opening (t.element (some parent) 2) = .ok r ↔
      AreStored (filesAt parent t) (referencesAt parent t) ∧
        r = d.enter [] ((filesAt parent t).map asFile) ((referencesAt parent t).map asReference) := by
  have hrole : d.roleOf (t.element (some parent) 2) =
      if t.name = "Dimension" ∧ parent = "Dimensions" then .dimension
      else if t.name = "File" ∧ parent = "Files" then .file
      else if t.name = "ManifestReference" ∧ parent = "ManifestReferences" then .reference
      else .other := by
    simp [roleOf, element, hd.1]
  unfold opening
  rw [hrole]
  by_cases hs : t.name = "Dimension" ∧ parent = "Dimensions"
  · rw [if_pos hs]
    simp [hs, hd.2, filesAt, referencesAt, AreStored, return_eq_ok_iff, enter_nil]
  rw [if_neg hs]
  by_cases hf : t.name = "File" ∧ parent = "Files"
  · rw [if_pos hf]
    simp only [bind_eq_ok_iff, readFile_eq_ok_iff, return_eq_ok_iff, and_assoc, exists_and_left,
      exists_eq_left]
    simp [hf, filesAt, referencesAt, AreStored, enter]
  rw [if_neg hf]
  by_cases hr : t.name = "ManifestReference" ∧ parent = "ManifestReferences"
  · rw [if_pos hr]
    simp only [bind_eq_ok_iff, readReference_eq_ok_iff, return_eq_ok_iff, and_assoc,
      exists_and_left, exists_eq_left]
    simp [hr, filesAt, referencesAt, AreStored, enter]
  rw [if_neg hr]
  have hnof : filesAt parent t = [] := if_neg fun h => hf h.symm
  have hnor : referencesAt parent t = [] := if_neg fun h => hr h.symm
  simp [hnof, hnor, AreStored, return_eq_ok_iff, enter_nil]

/-- An element outside the list of variables enters the file or the reference that it lists. -/
theorem leads_stored {parent : String} (hd : d.Idle false) :
    d.Leads (t.events (some parent) 2) (AreStored (filesAt parent t) (referencesAt parent t))
      (d.enter [] ((filesAt parent t).map asFile) ((referencesAt parent t).map asReference)) := by
  have hidle : Idle false (d.enter [] ((filesAt parent t).map asFile)
      ((referencesAt parent t).map asReference)) := hd
  have hinside := leads_eventsOfAll_of_idle t.name t.children (Nat.le_refl 3) hidle.2
  refine (leads_events (opening_of_stored hd) hinside).congr (iff_of_eq (and_true _)).symm ?_
  simp [closing, hidle.1]

end Stored

section Children

theorem flatMap_ite {α β : Type} (p : α → Prop) [DecidablePred p] (f : α → List β) (l : List α) :
    (l.flatMap fun x => if p x then f x else []) = (l.filter p).flatMap f := by
  induction l with
  | nil => rfl
  | cons x l ih => by_cases h : p x <;> simp [h, ih]

/-- The files and the references that a child of the root lists. -/
def filesOf (t : Tree) : List Tree := if t.name = "Files" then t.childrenNamed "File" else []

def referencesOf (t : Tree) : List Tree :=
  if t.name = "ManifestReferences" then t.childrenNamed "ManifestReference" else []

theorem flatMap_filesAt (t : Tree) : t.children.flatMap (filesAt t.name) = filesOf t := by
  unfold filesOf filesAt childrenNamed
  by_cases h : t.name = "Files"
  · simp [h, flatMap_ite]
  · simp [h]

theorem flatMap_referencesAt (t : Tree) :
    t.children.flatMap (referencesAt t.name) = referencesOf t := by
  unfold referencesOf referencesAt childrenNamed
  by_cases h : t.name = "ManifestReferences"
  · simp [h, flatMap_ite]
  · simp [h]

theorem roleOf_of_child (h : t.name ≠ "Variables" ∨ d.isListFound = true) :
    d.roleOf (t.element parent 1) =
      if t.name = "Dimension" ∧ parent = some "Dimensions" then .dimension else .other := by
  have hlist : ¬ (t.name = "Variables" ∧ d.isListFound = false) := fun hv => by
    rcases h with h | h
    · exact h hv.1
    · rw [hv.2] at h
      cases h
  simp [roleOf, element, hlist]

/-- A child of the root that is not the list of variables enters the files and references in it. -/
theorem leads_child (hd : d.Idle false) (h : t.name ≠ "Variables" ∨ d.isListFound = true) :
    d.Leads (t.events parent 1) (AreStored (filesOf t) (referencesOf t))
      (d.enter [] ((filesOf t).map asFile) ((referencesOf t).map asReference)) := by
  have hopen (r : ManifestDraft) : d.opening (t.element parent 1) = .ok r ↔ True ∧ r = d := by
    unfold opening
    rw [roleOf_of_child h]
    by_cases hs : t.name = "Dimension" ∧ parent = some "Dimensions"
    · rw [if_pos hs]
      simp [hd.2, return_eq_ok_iff]
    · rw [if_neg hs]
      simp [return_eq_ok_iff]
  have hinside := leads_eventsOfAll (some t.name) 2 t.children (Idle false)
    (fun _ hd _ _ => leads_stored hd) (fun _ _ _ _ => Idle.enter) hd
  refine (leads_events hopen hinside).congr ?_ ?_
  · rw [← flatMap_filesAt, ← flatMap_referencesAt]
    simp only [AreStored, List.mem_flatMap]
    grind
  · rw [← flatMap_filesAt, ← flatMap_referencesAt]
    simp_all [closing, Idle, enter, List.map_flatMap]

/-- The list of variables enters the variables in it, and closes. -/
theorem leads_variableList (hd : d.Idle false) (hname : t.name = "Variables")
    (hfound : d.isListFound = false) :
    d.Leads (t.events parent 1) (∀ x ∈ t.children.filter IsVariable, IsWhole x)
      ({ d with isListFound := true }.enter ((t.children.filter IsVariable).map asVariable) [] []) := by
  have hopen (r : ManifestDraft) : d.opening (t.element parent 1) = .ok r ↔
      True ∧ r = { d with isListFound := true, isInList := true } := by
    have hrole : d.roleOf (t.element parent 1) = .variableList := by
      simp [roleOf, element, hname, hfound]
    unfold opening
    rw [hrole, true_and]
    exact return_eq_ok_iff
  have hidle : Idle true { d with isListFound := true, isInList := true } := ⟨rfl, hd.2⟩
  have hinside := leads_eventsOfAll (some t.name) 2 t.children (Idle true)
    (fun _ hd _ _ => leads_listed hd) (fun _ _ _ _ => Idle.enter) hidle
  refine (leads_events hopen hinside).congr ?_ ?_
  · simp [List.mem_filter]
  · have hmap : (t.children.filter IsVariable).map asVariable =
        t.children.flatMap fun x => if x.IsVariable then [x.asVariable] else [] := by
      rw [flatMap_ite, List.map_eq_flatMap]
    rw [hmap]
    simp_all [closing, Idle, enter]

/-- The variables in the first list among the children of the root. -/
def variablesAmong (ts : List Tree) : List Tree :=
  ((ts.filter (·.name = "Variables")).take 1).flatMap fun list => list.children.filter IsVariable

/-- Behind the list of variables only files and references are entered. -/
theorem leads_children_of_found (parent : Option String) (ts : List Tree) (hd : d.Idle false)
    (hfound : d.isListFound = true) :
    d.Leads (eventsOfAll parent 1 ts) (AreStored (ts.flatMap filesOf) (ts.flatMap referencesOf))
      (d.enter [] ((ts.flatMap filesOf).map asFile) ((ts.flatMap referencesOf).map asReference)) := by
  have h := leads_eventsOfAll parent 1 ts (fun d => d.Idle false ∧ d.isListFound = true)
    (fun _ hd _ _ => leads_child hd.1 (.inr hd.2)) (fun _ _ _ _ hd => hd) ⟨hd, hfound⟩
  refine h.congr ?_ ?_
  · simp only [AreStored, List.mem_flatMap]
    grind
  · have hnone : (ts.flatMap fun _ => ([] : List ListedVariable)) = [] :=
      List.flatMap_eq_nil_iff.2 fun _ _ => rfl
    rw [hnone, List.map_flatMap, List.map_flatMap]

/-- The children of the root enter the variables of the first list, all files and all references. -/
theorem leads_children (parent : Option String) (ts : List Tree) (hd : d.Idle false)
    (hfound : d.isListFound = false) :
    ∃ found, d.Leads (eventsOfAll parent 1 ts)
      ((∀ t ∈ variablesAmong ts, IsWhole t) ∧
        AreStored (ts.flatMap filesOf) (ts.flatMap referencesOf))
      ({ d with isListFound := found }.enter ((variablesAmong ts).map asVariable)
        ((ts.flatMap filesOf).map asFile) ((ts.flatMap referencesOf).map asReference)) := by
  induction ts generalizing d with
  | nil =>
    refine ⟨false, leads_nil.congr (by simp [variablesAmong, AreStored]) ?_⟩
    cases d
    simp_all [variablesAmong, enter]
  | cons t ts ih =>
    by_cases hname : t.name = "Variables"
    · have hvariables : variablesAmong (t :: ts) = t.children.filter IsVariable := by
        simp [variablesAmong, hname]
      have hfiles : filesOf t = [] := by simp [filesOf, hname]
      have hreferences : referencesOf t = [] := by simp [referencesOf, hname]
      have hrest := leads_children_of_found parent ts
        (d := { d with isListFound := true }.enter ((t.children.filter IsVariable).map asVariable) [] [])
        hd rfl
      refine ⟨true, ((leads_variableList hd hname hfound).append hrest).congr ?_ ?_⟩
      · simp only [hvariables, List.flatMap_cons, hfiles, hreferences, List.nil_append]
      · rw [enter_enter, hvariables, List.flatMap_cons, List.flatMap_cons, hfiles, hreferences]
        simp
    · have hvariables : variablesAmong (t :: ts) = variablesAmong ts := by
        simp [variablesAmong, hname]
      obtain ⟨found, hrest⟩ := ih (d := d.enter [] ((filesOf t).map asFile)
        ((referencesOf t).map asReference)) hd hfound
      refine ⟨found, ((leads_child hd (.inl hname)).append hrest).congr ?_ ?_⟩
      · rw [hvariables]
        simp only [AreStored, List.flatMap_cons, List.mem_append]
        grind
      · rw [hvariables, List.flatMap_cons, List.flatMap_cons, List.map_append, List.map_append]
        simp [enter]

end Children

section Root

variable {root : Tree}

theorem fileElements_eq (root : Tree) : root.fileElements = root.children.flatMap filesOf := by
  unfold fileElements childrenNamed filesOf
  rw [flatMap_ite]
  rfl

theorem referenceElements_eq (root : Tree) : root.referenceElements = root.children.flatMap referencesOf := by
  unfold referenceElements childrenNamed referencesOf
  rw [flatMap_ite]
  rfl

theorem isTyped_iff (hv : t.IsVariable) : t.IsTyped ↔ (∃ name, t.attribute? "name" = some name) ∧
    (t.name = "Variable" →
      ∃ word ∈ ["Real", "Integer", "Boolean"], t.attribute? "type" = some word) := by
  unfold IsTyped type?
  refine and_congr Option.isSome_iff_exists ?_
  by_cases hg : t.name = "Variable"
  · rw [if_pos hg, Option.isSome_iff_exists]
    simp only [Option.bind_eq_some_iff, PrimitiveType.ofName?_eq_some_iff]
    constructor
    · rintro ⟨type, _, hword, rfl⟩ -
      exact ⟨type.name, by cases type <;> decide, hword⟩
    · intro h
      obtain ⟨word, hmem, hword⟩ := h hg
      have htype : ∃ type : PrimitiveType, word = type.name := by
        simp only [List.mem_cons, List.not_mem_nil, or_false] at hmem
        rcases hmem with rfl | rfl | rfl
        · exact ⟨.real, rfl⟩
        · exact ⟨.integer, rfl⟩
        · exact ⟨.boolean, rfl⟩
      obtain ⟨type, htype⟩ := htype
      exact ⟨type, word, hword, htype⟩
  · rcases isVariable_iff.1 hv with hgeneric | htype
    · exact absurd hgeneric hg
    · simp [hg, htype]

theorem isComplete_iff : root.IsComplete ↔ (∀ t ∈ root.variableElements, IsWhole t) ∧
    AreStored root.fileElements root.referenceElements := by
  have hvariable : ∀ t ∈ root.variableElements, t.IsVariable := fun t ht => by
    obtain ⟨list, -, hmem⟩ := List.mem_flatMap.1 ht
    exact of_decide_eq_true (List.mem_filter.1 hmem).2
  have hsize (x : Tree) : x.size?.isSome = true ↔
      ∃ text size, x.attribute? "size" = some text ∧ readSize? text = some size := by
    simp only [size?, Option.isSome_iff_exists, Option.bind_eq_some_iff]
    exact exists_comm.trans (by simp)
  constructor
  · rintro ⟨hnamed, htyped, hsized, hstored, htargeted⟩
    refine ⟨fun t ht => ⟨(isTyped_iff (hvariable t ht)).2 ⟨hnamed t ht, htyped t ht⟩, ?_⟩, ?_, ?_⟩
    · exact fun x hx => (hsize x).2 (hsized t ht x hx)
    · exact fun t ht => Option.isSome_iff_exists.2 (hstored t ht)
    · exact fun t ht => Option.isSome_iff_exists.2 (htargeted t ht)
  · rintro ⟨hwhole, hstored, htargeted⟩
    constructor
    · exact fun t ht => ((isTyped_iff (hvariable t ht)).1 (hwhole t ht).1).1
    · exact fun t ht => ((isTyped_iff (hvariable t ht)).1 (hwhole t ht).1).2
    · exact fun t ht x hx => (hsize x).1 ((hwhole t ht).2 x hx)
    · exact fun t ht => Option.isSome_iff_exists.1 (hstored t ht)
    · exact fun t ht => Option.isSome_iff_exists.1 (htargeted t ht)

/-- A root is followed from the start exactly if it is complete, and gives its manifest. -/
theorem leads_root (root : Tree) : ∃ d : ManifestDraft, d.manifest = root.manifest ∧
    Leads {} (root.events none 0) root.IsComplete d := by
  have hopen (r : ManifestDraft) : opening {} (root.element none 0) = .ok r ↔
      True ∧ r = { manifest := { id := root.attribute? "id" } } := by
    have hrole : roleOf {} (root.element none 0) = .root := rfl
    unfold opening
    rw [hrole]
    simp only [bind_eq_ok_iff, optional_element, Except.ok.injEq, exists_eq_left', return_eq_ok_iff,
      true_and]
  obtain ⟨found, hinside⟩ := leads_children (some root.name) root.children
    (d := { manifest := { id := root.attribute? "id" } }) ⟨rfl, rfl⟩ rfl
  refine ⟨_, ?_, (leads_events hopen hinside).congr ?_ rfl⟩
  · rw [Tree.manifest, fileElements_eq, referenceElements_eq]
    simp [closing, enter, variableElements, variablesAmong, childrenNamed]
  · rw [isComplete_iff, fileElements_eq, referenceElements_eq, true_and]
    rfl

end Root
end ManifestDraft

open Markup (Piece dropMark pieces)

end GalecAudit
