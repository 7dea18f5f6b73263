import GalecAudit.Proofs.Source.Tables
import Mathlib.Data.List.Chain
import Mathlib.Data.List.Nodup

/-!
# Ways down into records

The fields below a variable of a record type are reached in steps, each of which opens a record and takes
one of its fields. What a declaration adds to a table is what stands at the ends of these ways: primitive
fields, fields whose record is open already, and fields whose record is not declared.
-/
namespace GalecAudit

/-- A step down: the record that is opened, and the field of it that is taken. -/
structure Step where
  record : RecordType
  field : Declaration
deriving DecidableEq, Repr

/-- Steps that lead down from a record. Each opens a declared record and takes one of its fields, and the
next one opens the record that this field names. No record is opened twice, and none that is open
already. -/
structure IsDescent (records : List RecordType) (opened : List String) (first : String)
    (steps : List Step) : Prop where
  starts : steps.head?.map (·.record.name) = some first
  declared : ∀ s ∈ steps, s.record ∈ records ∧ s.field ∈ s.record.fields
  linked : steps.IsChain fun s t => s.field.type = .record t.record.name
  distinct : (steps.map (·.record.name)).Nodup
  unopened : ∀ s ∈ steps, s.record.name ∉ opened

/-- Steps that lead down from a record to a field. -/
def LeadsTo (records : List RecordType) (first : String) (steps : List Step)
    (field : Declaration) : Prop :=
  IsDescent records [] first steps ∧ steps.getLast?.map Step.field = some field

/-- The name of the field that steps lead to, below a variable. -/
def pathName (key : String) (steps : List Step) : String :=
  ".".intercalate (key :: steps.map (·.field.name))

theorem pathName_cons (key : String) (s : Step) (rest : List Step) :
    pathName key (s :: rest) = pathName (key ++ "." ++ s.field.name) rest := rfl

section Records

variable {records : List RecordType} {opened : List String} {key name first : String}
  {causality : Causality} {d : Declaration} {r : RecordType} {leaf : Leaf} {steps : List Step}

theorem findRecord?_eq_none_iff :
    findRecord? records name = none ↔ name ∉ records.map RecordType.name := by
  simp [findRecord?, List.find?_eq_none]

theorem mem_of_findRecord? (h : findRecord? records name = some r) :
    r ∈ records ∧ r.name = name := by
  have hname := List.find?_some h
  exact ⟨List.mem_of_find?_eq_some h, beq_iff_eq.1 hname⟩

/-- Of records with distinct names each is found under its own. -/
theorem findRecord?_eq_some_iff (hr : (records.map RecordType.name).Nodup) :
    findRecord? records name = some r ↔ r ∈ records ∧ r.name = name := by
  constructor
  · exact mem_of_findRecord?
  · rintro ⟨hm, rfl⟩
    cases hf : findRecord? records r.name with
    | none => exact absurd (List.mem_map_of_mem hm) (findRecord?_eq_none_iff.1 hf)
    | some found =>
      obtain ⟨hfound, hname⟩ := mem_of_findRecord? hf
      rw [List.inj_on_of_nodup_map hr hfound hm hname]

/-- A way down is a step into a record that is not open, and then a way on from the record that the field
names, if it does not end there. -/
theorem isDescent_cons_iff {s : Step} {rest : List Step} :
    IsDescent records opened first (s :: rest) ↔
      (s.record ∈ records ∧ s.record.name = first ∧ s.field ∈ s.record.fields) ∧ first ∉ opened ∧
        (rest = [] ∨ ∃ next, s.field.type = .record next ∧
          IsDescent records (first :: opened) next rest) := by
  constructor
  · rintro ⟨hs, hd, hl, hn, hu⟩
    have hname : s.record.name = first := Option.some.inj hs
    rw [List.forall_mem_cons] at hd hu
    rw [List.map_cons, List.nodup_cons] at hn
    refine ⟨⟨hd.1.1, hname, hd.1.2⟩, hname ▸ hu.1, ?_⟩
    cases rest with
    | nil => exact .inl rfl
    | cons t rest =>
      obtain ⟨hlink, hl⟩ := List.isChain_cons_cons.1 hl
      refine .inr ⟨t.record.name, hlink, rfl, hd.2, hl, hn.2, fun u hmem => ?_⟩
      rw [List.mem_cons, not_or, ← hname]
      exact ⟨fun he => hn.1 (he ▸ List.mem_map_of_mem hmem), hu.2 u hmem⟩
  · rintro ⟨⟨hr, rfl, hf⟩, ho, rfl | ⟨next, hlink, hs, hd, hl, hn, hu⟩⟩
    · refine ⟨rfl, ?_, List.isChain_singleton _, List.nodup_singleton _, ?_⟩
      · exact List.forall_mem_singleton.2 ⟨hr, hf⟩
      · exact List.forall_mem_singleton.2 ho
    · simp only [List.mem_cons, not_or] at hu
      refine ⟨rfl, List.forall_mem_cons.2 ⟨⟨hr, hf⟩, hd⟩, ?_, ?_, ?_⟩
      · rw [List.isChain_cons]
        refine ⟨fun t ht => ?_, hl⟩
        rw [Option.mem_def.1 ht] at hs
        have hnext : t.record.name = next := Option.some.inj hs
        rw [hlink, hnext]
      · rw [List.map_cons, List.nodup_cons]
        refine ⟨fun hm => ?_, hn⟩
        obtain ⟨t, ht, he⟩ := List.mem_map.1 hm
        exact (hu t ht).1 he
      · exact List.forall_mem_cons.2 ⟨ho, fun t ht => (hu t ht).2⟩

/-- A way down opens a record that is declared and that is not open yet. -/
theorem IsDescent.first_mem (h : IsDescent records opened first steps) :
    first ∈ records.map RecordType.name ∧ first ∉ opened := by
  cases steps with
  | nil => cases h.starts
  | cons s rest =>
    obtain ⟨⟨hr, rfl, -⟩, ho, -⟩ := isDescent_cons_iff.1 h
    exact ⟨List.mem_map_of_mem hr, ho⟩

namespace Declaration

/-- The entry of a declaration of a primitive type. -/
def entry (d : Declaration) (type : PrimitiveType) (causality : Causality) : Entry :=
  { type, causality, line := d.line, dimensions := d.sizes?.getD [], range := d.range }

/-- What a declaration adds to a table itself, where it opens no record. -/
def ownLeaf? (records : List RecordType) (opened : List String) (key : String)
    (causality : Causality) (d : Declaration) : Option Leaf :=
  match d.type with
  | .primitive type => some (.entry key (d.entry type causality))
  | .record name =>
    if name ∈ opened then some (.issue (selfContainedIssue name d.line))
    else if name ∈ records.map RecordType.name then none
    else some (.issue (unknownRecordIssue name key d.line))

/-- A leaf at the end of a way down from a declaration. -/
def LeafBelow (records : List RecordType) (opened : List String) (key : String) (d : Declaration)
    (leaf : Leaf) : Prop :=
  ∃ first steps last, d.type = .record first ∧ IsDescent records opened first steps ∧
    steps.getLast? = some last ∧
    last.field.ownLeaf? records (steps.map (·.record.name) ++ opened) (pathName key steps)
      .state = some leaf

theorem ownLeaf?_of_primitive {type : PrimitiveType} (ht : d.type = .primitive type) :
    d.ownLeaf? records opened key causality = some (.entry key (d.entry type causality)) := by
  rw [ownLeaf?, ht]

theorem ownLeaf?_of_record (ht : d.type = .record name) :
    d.ownLeaf? records opened key causality =
      if name ∈ opened then some (.issue (selfContainedIssue name d.line))
      else if name ∈ records.map RecordType.name then none
      else some (.issue (unknownRecordIssue name key d.line)) := by
  rw [ownLeaf?, ht]

/-- What a declaration adds itself depends on which records are open, not on how these are listed. -/
theorem ownLeaf?_congr {opened' : List String} (h : ∀ name, name ∈ opened ↔ name ∈ opened') :
    d.ownLeaf? records opened key causality = d.ownLeaf? records opened' key causality := by
  unfold ownLeaf?
  simp only [h]

/-- Where there is a way down from a declaration, it adds nothing itself. -/
theorem ownLeaf?_of_isDescent (ht : d.type = .record first)
    (h : IsDescent records opened first steps) :
    d.ownLeaf? records opened key causality = none := by
  rw [ownLeaf?_of_record ht, if_neg h.first_mem.2, if_pos h.first_mem.1]

theorem mem_own_iff {own : Leaf} (h : d.ownLeaf? records opened key causality = some own) :
    leaf ∈ [own] ↔ d.ownLeaf? records opened key causality = some leaf ∨
      d.LeafBelow records opened key leaf := by
  rw [List.mem_singleton, h, Option.some_inj, eq_comm, iff_self_or]
  rintro ⟨first, steps, -, ht, hd, -⟩
  rw [ownLeaf?_of_isDescent ht hd] at h
  cases h

/-- What lies below a declaration of a record type is what its fields add and what lies below them. -/
theorem leafBelow_iff (hr : (records.map RecordType.name).Nodup) (ht : d.type = .record r.name)
    (hm : r ∈ records) (ho : r.name ∉ opened) :
    d.LeafBelow records opened key leaf ↔ ∃ field ∈ r.fields,
      field.ownLeaf? records (r.name :: opened) (key ++ "." ++ field.name) .state = some leaf ∨
        field.LeafBelow records (r.name :: opened) (key ++ "." ++ field.name) leaf := by
  -- the records that are open below a field, with the first of them at the front
  have hperm (field : Declaration) (steps : List Step) (key : String) (last : Step) :
      last.field.ownLeaf? records (steps.map (·.record.name) ++ r.name :: opened) key .state =
        last.field.ownLeaf? records ((⟨r, field⟩ :: steps).map (·.record.name) ++ opened) key
          .state :=
    ownLeaf?_congr (by simp [or_left_comm])
  constructor
  · rintro ⟨first, steps, last, ht', hd, hlast, hown⟩
    obtain rfl := DeclaredType.record.inj (ht.symm.trans ht')
    cases steps with
    | nil => cases hlast
    | cons s rest =>
      obtain ⟨⟨hs, hname, hfield⟩, -, hrest⟩ := isDescent_cons_iff.1 hd
      obtain rfl : s.record = r := List.inj_on_of_nodup_map hr hs hm hname
      refine ⟨s.field, hfield, ?_⟩
      rcases hrest with rfl | ⟨next, hlink, hd⟩
      · cases hlast
        exact .inl hown
      · cases rest with
        | nil => cases hd.starts
        | cons t rest =>
          refine .inr ⟨next, t :: rest, last, hlink, hd, ?_, ?_⟩
          · rwa [List.getLast?_cons_cons] at hlast
          · rw [hperm s.field]
            exact hown
  · rintro ⟨field, hfield, hown | ⟨next, steps, last, hlink, hd, hlast, hown⟩⟩
    · refine ⟨r.name, [⟨r, field⟩], ⟨r, field⟩, ht, ?_, rfl, hown⟩
      exact isDescent_cons_iff.2 ⟨⟨hm, rfl, hfield⟩, ho, .inl rfl⟩
    · refine ⟨r.name, ⟨r, field⟩ :: steps, last, ht, ?_, ?_, ?_⟩
      · exact isDescent_cons_iff.2 ⟨⟨hm, rfl, hfield⟩, ho, .inr ⟨next, hlink, hd⟩⟩
      · rw [List.getLast?_cons, hlast]
        rfl
      · rw [pathName_cons, ← hperm field]
        exact hown

/-- The leaves of a declaration are its own leaf, or those at the ends of the ways down from it. -/
theorem mem_leaves_iff (hr : (records.map RecordType.name).Nodup) :
    leaf ∈ d.leaves records opened key causality ↔
      d.ownLeaf? records opened key causality = some leaf ∨
        d.LeafBelow records opened key leaf := by
  -- along the expansion: each record that is opened leaves fewer that are not open
  fun_induction Declaration.leaves records opened key causality d with
  | case1 opened key causality d type ht => exact mem_own_iff (ownLeaf?_of_primitive ht)
  | case2 opened key causality d name ht ho =>
    rw [List.contains_iff_mem] at ho
    apply mem_own_iff
    rw [ownLeaf?_of_record ht, if_pos ho]
  | case3 opened key causality d name ht ho hf =>
    rw [List.contains_iff_mem] at ho
    apply mem_own_iff
    rw [ownLeaf?_of_record ht, if_neg ho, if_neg (findRecord?_eq_none_iff.1 hf)]
  | case4 opened key causality d name ht ho r hf _ ih =>
    rw [List.contains_iff_mem] at ho
    obtain ⟨hm, rfl⟩ := (findRecord?_eq_some_iff hr).1 hf
    have hnone : d.ownLeaf? records opened key causality = none := by
      rw [ownLeaf?_of_record ht, if_neg ho, if_pos (List.mem_map_of_mem hm)]
    simp only [hnone, reduceCtorEq, false_or, leafBelow_iff hr ht hm ho, List.mem_flatMap, ih]

/-- A declaration of a record type adds an issue, or what its fields lead to. -/
theorem mem_leaves_iff_of_record (hr : (records.map RecordType.name).Nodup)
    (ht : d.type = .record first) :
    leaf ∈ d.leaves records [] key causality ↔
      (first ∉ records.map RecordType.name ∧ .issue (unknownRecordIssue first key d.line) = leaf) ∨
      ∃ steps field, LeadsTo records first steps field ∧
        field.ownLeaf? records (steps.map (·.record.name)) (pathName key steps) .state =
          some leaf := by
  rw [mem_leaves_iff hr, ownLeaf?_of_record ht, if_neg List.not_mem_nil,
    Option.ite_none_left_eq_some, Option.some_inj]
  apply or_congr_right
  unfold LeafBelow LeadsTo
  simp only [ht, DeclaredType.record.injEq, List.append_nil, Option.map_eq_some_iff]
  constructor
  · rintro ⟨_, steps, last, rfl, hd, hlast, hown⟩
    exact ⟨steps, last.field, ⟨hd, last, hlast, rfl⟩, hown⟩
  · rintro ⟨steps, _, ⟨hd, last, hlast, rfl⟩, hown⟩
    exact ⟨first, steps, last, rfl, hd, hlast, hown⟩

end Declaration

end Records

end GalecAudit
