import GalecAudit.Proofs.Check.Declarations
import GalecAudit.Proofs.Source.Records
import GalecAudit.Proofs.Source.Segments

/-!
# Fields in the declaration check

Which accesses to fields of records the declaration check accepts. The sizes of a record variable and of
the records inside it are dropped when it is expanded, and only the elements of the last field are listed.
So an access that subscripts a record is found under the name of the field alone, which does not count
where the field is an array that is listed element by element.
-/
namespace GalecAudit

theorem undeclaredVariable_inj {name other : String} {line line' : Nat}
    (h : undeclaredVariable name line = undeclaredVariable other line') :
    name = other ∧ line = line' := by
  have hline : line = line' := Option.some.inj (congrArg Diagnostic.line h)
  subst hline
  have hmessage := congrArg Diagnostic.message h
  have hname : toString name = toString other := by
    simpa [undeclaredVariable, Diagnostic.errorAt] using hmessage
  exact ⟨hname, rfl⟩

theorem mem_checkDeclarations_iff {scope : Scope} {routine : Routine} {name : String} {line : Nat} :
    undeclaredVariable name line ∈ checkDeclarations scope routine ↔
      scope.lookup name = none ∧ ∃ r, routine.Mentions r ∧ r.key = (name, line) := by
  rw [checkDeclarations_eq, List.mem_map]
  constructor
  · rintro ⟨key, hkey, he⟩
    obtain ⟨rfl, rfl⟩ := undeclaredVariable_inj he
    exact Routine.mem_undeclared_iff.1 hkey
  · exact fun h => ⟨(name, line), Routine.mem_undeclared_iff.2 h, rfl⟩

/-- Whatever a variable adds to a table has the name of the variable once its subscripts are dropped. -/
theorem baseName_of_mem_expand {name key : String} {owner entry : Entry} (hn : BracketFree name)
    (h : (key, entry) ∈ expand (name, owner)) : baseName key = name := by
  rcases mem_expand.1 h with ⟨rfl, -⟩ | ⟨position, -, rfl, -⟩
  · exact hn.baseName_eq
  · rw [← indexedName_map_ofNat, baseName_indexedName hn]

namespace Scope

variable {scope : Scope} {name : String} {c : Candidate} {entry : Entry}

theorem lookup_ne_none_iff :
    scope.lookup name ≠ none ↔ ∃ c ∈ candidates name, scope.resolve? c ≠ none := by
  rw [lookup, Ne, List.findSome?_eq_none_iff]
  simp only [not_forall, exists_prop, Ne]

theorem resolve?_eq_some_iff : scope.resolve? c = some entry ↔
    scope.find? c.name = some entry ∧ (c.isAggregate = true → isExpanded entry.dimensions = false) := by
  rw [resolve?, Option.filter_eq_some_iff]
  cases c.isAggregate <;> simp

/-- A name that some table has is found. -/
theorem lookup_ne_none_of_contains {table : VariableTable} (ht : table ∈ scope.layers)
    (hc : table.contains name = true) : scope.lookup name ≠ none := by
  obtain ⟨entry, he⟩ := VariableTable.contains_iff.1 hc
  have hfind : scope.find? name ≠ none := by
    intro hnone
    have hmissing := List.findSome?_eq_none_iff.1 hnone table ht
    rw [he] at hmissing
    cases hmissing
  obtain ⟨found, hfound⟩ := Option.ne_none_iff_exists'.1 hfind
  refine lookup_ne_none_iff.2 ⟨_, (own_mem_candidates name).1, ?_⟩
  rw [resolve?_eq_some_iff.2 ⟨hfound, fun h => by cases h⟩]
  exact Option.some_ne_none found

end Scope

namespace Source

/-- A primitive field below a variable of a record type in the protected section. Its sizes are fixed, and
if it is an array, then one that is listed element by element. -/
structure ProtectedField (b : Block) where
  causality : Option Causality
  owner : Declaration
  declared : .variable causality owner ∈ b.protectedItems
  record : String
  ofRecord : owner.type = .record record
  steps : List Step
  field : GalecAudit.Declaration
  leads : LeadsTo b.knownRecords record steps field
  type : PrimitiveType
  primitive : field.type = .primitive type
  sizes : List Nat
  fixed : field.sizes? = some sizes
  listed : sizes = [] ∨ isExpanded sizes = true

namespace ProtectedField

variable {b : Block} {block : GalecAudit.Block} (f : ProtectedField b)

/-- The name under which the tables of the block know the field. -/
def name : String := pathName f.owner.name f.steps

def entry : Entry := f.field.entry f.type .state

/-- The variable, the fields on the way, and last the field itself. -/
def declarations : List GalecAudit.Declaration :=
  f.owner.flatten (f.causality.getD .state) :: f.steps.map Step.field

theorem dimensions_entry : f.entry.dimensions = f.sizes := by
  show f.field.sizes?.getD [] = f.sizes
  rw [f.fixed]
  rfl

theorem getLast?_declarations : f.declarations.getLast? = some f.field := by
  have hlast : (f.steps.map Step.field).getLast? = some f.field := by
    rw [List.getLast?_map]
    exact f.leads.2
  rw [declarations, List.getLast?_cons, hlast]
  rfl

theorem mem_sectionVariables : (f.name, f.entry) ∈ b.sectionVariables := by
  refine List.mem_flatMap.2 ⟨_, f.declared, ?_⟩
  have howner : (f.owner.flatten (f.causality.getD .state)).type = .record f.record := f.ofRecord
  exact (Declaration.mem_named_iff b.nodup_knownRecords howner).2
    ⟨f.steps, f.field, f.type, f.leads, f.primitive, rfl⟩

section Access

variable {loops : LoopScope} {segments : List (Segment Expr)} {entry : Entry}
  (hsel : List.Forall₂ (Segment.Selects loops) segments f.declarations)
include hsel

theorem fieldName_eq : fieldName segments = f.name := by
  rw [fieldName_of_selects hsel, declarations, List.map_cons, List.map_map]
  rfl

/-- An access that opens records as a whole has the name of the field or of one of its elements. -/
theorem exists_mem_expand (hw : OpensWhole segments) :
    ∃ entry, (accessName loops segments, entry) ∈ expand (f.name, f.entry) := by
  obtain ⟨last, hlast, hl⟩ := exists_last_of_selects hsel f.getLast?_declarations
  rw [accessName_eq hlast ((opensWhole_iff hsel).1 hw), f.fieldName_eq hsel]
  split
  · exact ⟨f.entry, mem_expand.2 (.inl ⟨rfl, rfl⟩)⟩
  · next hindex =>
    rcases hl.within with hnone | ⟨sizes, position, hsizes, hposition, hi⟩
    · exact absurd (hl.index_eq_nil_iff.2 hnone) hindex
    · obtain rfl := Option.some.inj (f.fixed.symm.trans hsizes)
      have hexpanded : isExpanded f.sizes = true := by
        refine f.listed.resolve_left fun hs => hindex ?_
        rw [hs, IsPosition, List.forall₂_nil_right_iff] at hposition
        rw [hi, hposition]
        rfl
      refine ⟨f.entry.atIndex position, mem_expand.2 (.inr ⟨position, ?_, ?_, rfl⟩)⟩
      · rw [dimensions_entry]
        exact mem_elementPositions_iff.2 ⟨hexpanded, hposition⟩
      · rw [hi, indexedName_map_ofNat]

/-- Only such an access has one of these names. -/
theorem opensWhole_of_mem_expand
    (h : (accessName loops segments, entry) ∈ expand (f.name, f.entry)) : OpensWhole segments := by
  rw [opensWhole_iff hsel]
  rw [← f.fieldName_eq hsel] at h
  rcases mem_expand.1 h with ⟨hname, -⟩ | ⟨position, -, hname, -⟩
  · have hwhole : (accessName loops segments).toList = (fieldName segments).toList ++ [] := by
      rw [hname, List.append_nil]
    exact index_eq_nil_of_accessName hwhole
  · apply index_eq_nil_of_accessName
    rw [hname, toList_indexedName]

end Access

/-- The field is the only variable that brings a name under which an access is looked for into the tables
of a routine. -/
structure OnlyDeclared (block : GalecAudit.Block) (routine : GalecAudit.Routine)
    (manifest : VariableTable) (reference : String) : Prop where
  inSection : ∀ c ∈ candidates reference, ∀ v ∈ b.sectionVariables, ∀ entry,
    (c.name, entry) ∈ expand v → v = (f.name, f.entry)
  elsewhere : ∀ c ∈ candidates reference, ∀ table ∈ [routine.locals, block.entities, manifest],
    table.get? c.name = none

variable {f} {routine : GalecAudit.Routine} {manifest : VariableTable} {reference : String}
  {c : Candidate} {entry : Entry}

/-- Under the names of an access the tables have what the field adds. -/
theorem OnlyDeclared.find?_iff (hb : b.flatten = .ok block)
    (ho : f.OnlyDeclared block routine manifest reference) (hc : c ∈ candidates reference) :
    (Scope.ofRoutine block routine manifest).find? c.name = some entry ↔
      (c.name, entry) ∈ expand (f.name, f.entry) := by
  obtain ⟨-, htable⟩ := Block.tables_of_flatten hb
  have helsewhere := ho.elsewhere c hc
  simp only [List.forall_mem_cons] at helsewhere
  obtain ⟨hlocals, hentities, hmanifest, -⟩ := helsewhere
  have hfind : (Scope.ofRoutine block routine manifest).find? c.name =
      block.protectedVariables.get? c.name := by
    simp only [Scope.ofRoutine, Scope.find?, List.findSome?_cons, hlocals, hentities, hmanifest]
    cases block.protectedVariables.get? c.name <;> rfl
  rw [hfind, htable]
  exact get?_ofVariables_of_only f.mem_sectionVariables (ho.inSection c hc)

section Lookup

variable {loops : LoopScope} {segments : List (Segment Expr)}

/-- Where nothing else has its names, an access is found exactly if it opens records as a whole or the
field is no array. -/
theorem OnlyDeclared.lookup_iff (hb : b.flatten = .ok block)
    (hsel : List.Forall₂ (Segment.Selects loops) segments f.declarations)
    (hfree : ∀ d ∈ f.declarations, BracketFree d.name)
    (ho : f.OnlyDeclared block routine manifest (accessName loops segments)) :
    (Scope.ofRoutine block routine manifest).lookup (accessName loops segments) ≠ none ↔
      OpensWhole segments ∨ f.sizes = [] := by
  have hbase : baseName (accessName loops segments) = f.name := by
    rw [baseName_accessName (bracketFree_of_selects hsel hfree), f.fieldName_eq hsel]
  have hname : BracketFree f.name := hbase ▸ bracketFree_baseName _
  rw [Scope.lookup_ne_none_iff]
  constructor
  · rintro ⟨c, hc, hr⟩
    obtain ⟨entry, he⟩ := Option.ne_none_iff_exists'.1 hr
    obtain ⟨hfind, haggregate⟩ := Scope.resolve?_eq_some_iff.1 he
    have hx := (ho.find?_iff hb hc).1 hfind
    have hdropped := baseName_of_mem_expand hname hx
    rcases mem_candidates hc with rfl | rfl | ⟨inner, hp, rfl | rfl⟩
    · exact .inl (f.opensWhole_of_mem_expand hsel hx)
    · right
      rw [hbase] at hx
      obtain rfl := entry_unique_of_mem_expand hx (mem_expand.2 (.inl ⟨rfl, rfl⟩))
      have hunlisted := haggregate rfl
      rw [f.dimensions_entry] at hunlisted
      exact f.listed.resolve_right fun hl => by rw [hunlisted] at hl; cases hl
    -- the variable behind a previous value is never the field
    · exact absurd (hdropped.trans hbase.symm) (baseName_ne_of_previousOf? hp)
    · rw [(bracketFree_baseName inner).baseName_eq] at hdropped
      exact absurd (hdropped.trans hbase.symm) (baseName_ne_of_previousOf? hp)
  · rintro (hw | hs)
    · obtain ⟨entry, hx⟩ := f.exists_mem_expand hsel hw
      have hc := (own_mem_candidates (accessName loops segments)).1
      have hfind := (ho.find?_iff hb hc).2 hx
      refine ⟨_, hc, ?_⟩
      rw [Scope.resolve?_eq_some_iff.2 ⟨hfind, fun h => by cases h⟩]
      exact Option.some_ne_none entry
    · have hunlisted : isExpanded f.entry.dimensions = false := by
        rw [f.dimensions_entry, hs]
        rfl
      have hcandidate : ∃ c ∈ candidates (accessName loops segments), c.name = f.name := by
        by_cases hsame : baseName (accessName loops segments) = accessName loops segments
        · exact ⟨_, (own_mem_candidates _).1, hsame.symm.trans hbase⟩
        · exact ⟨_, (own_mem_candidates _).2 hsame, hbase⟩
      obtain ⟨c, hc, hn⟩ := hcandidate
      have hfind := (ho.find?_iff hb hc).2 (mem_expand.2 (.inl ⟨hn, rfl⟩))
      refine ⟨c, hc, ?_⟩
      rw [Scope.resolve?_eq_some_iff.2 ⟨hfind, fun _ => hunlisted⟩]
      exact Option.some_ne_none f.entry

end Lookup

/-- Which accesses to a field of a record pass the declaration check. Each access whose segments name the
variable and the fields on the way, with constant subscripts within their sizes or none, becomes a
reference. It is declared if it subscripts nothing in front of the last segment. Where nothing else has
the names under which it is looked for, an access with subscripts in front is declared only if the field
is no array; otherwise every routine that mentions it gets an error, although the access is legal. -/
theorem declared_iff_opensWhole (hb : b.flatten = .ok block) (f : ProtectedField b)
    {loops : LoopScope} {access : Access Expr}
    (hsel : List.Forall₂ (Segment.Selects loops) access.segments f.declarations) :
    ∃ r, access.resolve loops = .ok r ∧ r.key = access.key loops ∧
      ∀ (routine : GalecAudit.Routine) (manifest : VariableTable),
        let scope := Scope.ofRoutine block routine manifest
        let report := undeclaredVariable r.name r.line
        (OpensWhole access.segments →
          scope.lookup r.name ≠ none ∧ report ∉ checkDeclarations scope routine) ∧
        (f.OnlyDeclared block routine manifest r.name →
          (∀ d ∈ f.declarations, BracketFree d.name) →
          (scope.lookup r.name ≠ none ↔ OpensWhole access.segments ∨ f.sizes = []) ∧
          (routine.Mentions r → (report ∈ checkDeclarations scope routine ↔
            ¬ OpensWhole access.segments ∧ f.sizes ≠ []))) := by
  refine ⟨access.constantReference loops, Access.resolve_of_selects hsel, rfl, ?_⟩
  intro routine manifest scope report
  constructor
  · intro hw
    have hcontains :
        block.protectedVariables.contains (accessName loops access.segments) = true := by
      obtain ⟨entry, hx⟩ := f.exists_mem_expand hsel hw
      rw [(Block.tables_of_flatten hb).2, contains_ofVariables]
      exact ⟨entry, List.mem_flatMap.2 ⟨_, f.mem_sectionVariables, hx⟩⟩
    have hfound : scope.lookup (accessName loops access.segments) ≠ none :=
      Scope.lookup_ne_none_of_contains (by simp [scope, Scope.ofRoutine]) hcontains
    exact ⟨hfound, fun hm => hfound (mem_checkDeclarations_iff.1 hm).1⟩
  · intro ho hfree
    have hlookup := ho.lookup_iff hb hsel hfree
    refine ⟨hlookup, fun hm => ?_⟩
    rw [mem_checkDeclarations_iff, and_iff_left ⟨_, hm, rfl⟩, ← not_or]
    exact Classical.not_not.symm.trans (not_congr hlookup)

end ProtectedField

/-- A record with an array. -/
def cellRecord : Record where
  name := "Cell"
  fields :=
    [(none, { type := .primitive .real, name := "level", line := 4, range := none,
              dimensions := [.sized (.literal .integer "2" 4) "2"] })]
  endName := ⟨"Cell", 5⟩
  line := 3

/-- A block with an array of records. -/
def packBlock : Block where
  name := "Pack"
  entities := []
  protectedItems :=
    [.record cellRecord,
     .variable none { type := .record "Cell", name := "cells", line := 6, range := none,
                      dimensions := [.sized (.literal .integer "3" 6) "3"] }]
  publicRoutines := []
  endName := ⟨"Pack", 12⟩
  line := 1

def levelField : ProtectedField packBlock where
  causality := none
  owner := _
  declared := List.mem_cons_of_mem _ List.mem_cons_self
  record := "Cell"
  ofRecord := rfl
  steps := [⟨cellRecord.flatten, _⟩]
  field := _
  leads :=
    ⟨isDescent_cons_iff.2
      ⟨⟨List.mem_cons_self, rfl, List.mem_cons_self⟩, List.not_mem_nil, .inl rfl⟩, rfl⟩
  type := .real
  primitive := rfl
  sizes := [2]
  fixed := rfl
  listed := .inr rfl

/-- The access `cells[1].level[2]`. -/
def levelAccess : Access Expr where
  isState := true
  segments := [⟨"cells", [.literal .integer "1" 9]⟩, ⟨"level", [.literal .integer "2" 9]⟩]
  line := 9

def readingLocals : VariableTable :=
  VariableTable.empty.declare .element "x" { type := .real, causality := .routineLocal, line := 8 }

/-- A routine that assigns what a reference means to a variable of its own. -/
def readingRoutine (r : Reference) : GalecAudit.Routine where
  name := "Read"
  kind := .method
  line := 8
  signals := []
  locals := readingLocals
  bindings := [{ id := 0, target := ⟨"x", false, 9, []⟩, value := .reference r, line := 9 }]
  conditions := []
  calls := []
  limits := []
  raised := []

theorem sectionVariables_packBlock {v : String × Entry} (h : v ∈ packBlock.sectionVariables) :
    v = (levelField.name, levelField.entry) := by
  obtain ⟨item, hitem, hv⟩ := List.mem_flatMap.1 h
  have hrecords : packBlock.knownRecords = [cellRecord.flatten] := rfl
  rcases List.mem_pair.1 hitem with rfl | rfl
  · cases hv
  · obtain ⟨name, entry⟩ := v
    obtain ⟨steps, field, type, ⟨hd, hlast⟩, ht, he⟩ :=
      (Declaration.mem_named_iff packBlock.nodup_knownRecords rfl).1 hv
    rw [he]
    rw [hrecords] at hd
    cases steps with
    | nil => exact absurd rfl hd.ne_nil
    | cons s rest =>
      obtain ⟨record, own⟩ := s
      obtain ⟨⟨hr, -, hf⟩, -, hrest⟩ := isDescent_cons_iff.1 hd
      obtain rfl := List.mem_singleton.1 hr
      obtain rfl := List.mem_singleton.1 hf
      rcases hrest with rfl | ⟨next, hlink, -⟩
      · cases hlast
        cases ht
        rfl
      · cases hlink

theorem selects_levelAccess :
    List.Forall₂ (Segment.Selects []) levelAccess.segments levelField.declarations :=
  .cons ⟨rfl, by decide, .inr ⟨[3], [1], rfl, .cons (by decide) .nil, rfl⟩⟩
    (.cons ⟨rfl, by decide, .inr ⟨[2], [2], rfl, .cons (by decide) .nil, rfl⟩⟩ .nil)

theorem onlyDeclared_levelAccess {block : GalecAudit.Block} (hb : packBlock.flatten = .ok block)
    (r : Reference) :
    levelField.OnlyDeclared block (readingRoutine r) .empty "cells[1].level[2]" := by
  constructor
  · exact fun _ _ v hv _ _ => sectionVariables_packBlock hv
  · have hentities : block.entities = .empty := (Block.tables_of_flatten hb).1
    rw [hentities]
    show ∀ c ∈ candidates "cells[1].level[2]", ∀ table ∈ [readingLocals, .empty, .empty],
      table.get? c.name = none
    decide +kernel

/-- A routine that mentions the element gets an error, as its record is subscripted. -/
theorem ProtectedField.reported_levelAccess : ∃ block r, packBlock.flatten = .ok block ∧
    levelAccess.resolve [] = .ok r ∧ r.key = ("cells[1].level[2]", 9) ∧
    levelField.OnlyDeclared block (readingRoutine r) .empty r.name ∧
    (∀ d ∈ levelField.declarations, BracketFree d.name) ∧ (readingRoutine r).Mentions r ∧
    undeclaredVariable r.name r.line ∈
      checkDeclarations (Scope.ofRoutine block (readingRoutine r) .empty) (readingRoutine r) := by
  have hflatten : ∃ block, packBlock.flatten = .ok block := ⟨_, rfl⟩
  obtain ⟨block, hb⟩ := hflatten
  obtain ⟨r, hresolve, hkey, hall⟩ := declared_iff_opensWhole hb levelField selects_levelAccess
  have hname : r.key = ("cells[1].level[2]", 9) := hkey.trans (by decide)
  have honly : levelField.OnlyDeclared block (readingRoutine r) .empty r.name := by
    rw [(Prod.mk.inj hname).1]
    exact onlyDeclared_levelAccess hb r
  have hfree : ∀ d ∈ levelField.declarations, BracketFree d.name := by decide
  have hmentions : (readingRoutine r).Mentions r :=
    .value List.mem_cons_self (.reference .self)
  refine ⟨block, r, hb, hresolve, hname, honly, hfree, hmentions, ?_⟩
  obtain ⟨-, hreport⟩ := (hall (readingRoutine r) .empty).2 honly hfree
  refine (hreport hmentions).2 ⟨?_, by decide⟩
  exact fun hw => absurd (hw _ List.mem_cons_self) (by decide)

/-- An element of an array in an element of an array of records is found nowhere, although both subscripts
are within their sizes and nothing else has the name. -/
theorem undeclared_element_of_recordArray : ∃ block r, packBlock.flatten = .ok block ∧
    List.Forall₂ (Segment.Selects []) levelAccess.segments levelField.declarations ∧
    levelAccess.resolve [] = .ok r ∧
    levelField.OnlyDeclared block (readingRoutine r) .empty r.name ∧
    (Scope.ofRoutine block (readingRoutine r) .empty).lookup r.name = none := by
  have hflatten : ∃ block, packBlock.flatten = .ok block := ⟨_, rfl⟩
  obtain ⟨block, hb⟩ := hflatten
  let r := levelAccess.constantReference []
  have honly : levelField.OnlyDeclared block (readingRoutine r) .empty r.name :=
    onlyDeclared_levelAccess hb r
  refine ⟨block, r, hb, selects_levelAccess, Access.resolve_of_selects selects_levelAccess, honly, ?_⟩
  by_contra hfound
  rcases (honly.lookup_iff hb selects_levelAccess (by decide)).1 hfound with hw | hs
  · exact absurd (hw _ List.mem_cons_self) (by decide)
  · exact absurd hs (by decide)

end Source

end GalecAudit
