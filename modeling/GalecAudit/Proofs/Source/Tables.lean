import GalecAudit.Proofs.Source.Induction
import GalecAudit.Proofs.Variable.Expansion
import GalecAudit.Source.Flatten

/-!
# Tables of blocks

The two tables of a block in flat form are the tables of the variables that its entities and its protected
section declare, with the fields of records in the place of a variable of a record type.
-/
namespace GalecAudit

def Leaf.named? : Leaf → Option (String × Entry)
  | .entry key e => some (key, e)
  | .issue _ => none

theorem VariableTable.fst_enter (table : VariableTable) (leaves : List Leaf) :
    (table.enter leaves).1 = table.insertMany ((leaves.filterMap Leaf.named?).flatMap expand) := by
  induction leaves generalizing table with
  | nil => rfl
  | cons leaf rest ih =>
    cases leaf with
    | issue d =>
      rw [List.filterMap_cons_none rfl]
      exact ih table
    | entry key e =>
      have hl : (Leaf.entry key e).named? = some (key, e) := rfl
      have hr := ih (table.declare .element key e)
      rw [List.filterMap_cons_some hl, List.flatMap_cons,
        VariableTable.insertMany_append, ← VariableTable.declare_eq_insertMany, enter]
      cases table.get? key with
      | none => exact hr
      | some previous => exact hr

/-- The variables that a declaration adds to a table: itself, or the fields below it. -/
def Declaration.named (records : List RecordType) (d : Declaration) : List (String × Entry) :=
  (d.leaves records [] d.name d.causality).filterMap Leaf.named?

theorem VariableTable.fst_declareAll (table : VariableTable) (records : List RecordType)
    (d : Declaration) :
    (table.declareAll records d).1 = table.insertMany ((d.named records).flatMap expand) :=
  fst_enter table _

namespace Source

theorem fst_declareEach (records : List RecordType) (table : VariableTable)
    (ds : List GalecAudit.Declaration) :
    (declareEach records table ds).1 =
      table.insertMany ((ds.flatMap (GalecAudit.Declaration.named records)).flatMap expand) := by
  induction ds generalizing table with
  | nil => rfl
  | cons d rest ih =>
    rw [List.flatMap_cons, List.flatMap_append, VariableTable.insertMany_append,
      ← VariableTable.fst_declareAll, ← ih]
    rfl

/-- The variables that an item of a protected section declares. -/
def ProtectedItem.named (records : List RecordType) : ProtectedItem → List (String × Entry)
  | .variable causality d => (d.flatten (causality.getD .state)).named records
  | .record _ | .signals _ | .routine _ => []

theorem Section.table_add {records : List RecordType} {s t : Section} {item : ProtectedItem}
    (h : s.add records item = .ok t) :
    t.table = s.table.insertMany ((item.named records).flatMap expand) := by
  cases item with
  | record r =>
    cases h
    rfl
  | signals signals =>
    cases h
    rfl
  | routine r =>
    obtain ⟨p, -, hp⟩ := bind_eq_ok_iff.1 h
    cases hp
    rfl
  | «variable» causality d =>
    cases h
    exact VariableTable.fst_declareAll _ _ _

theorem Section.table_foldlM {records : List RecordType} {items : List ProtectedItem}
    {s t : Section} (h : items.foldlM (Section.add records) s = .ok t) :
    t.table = s.table.insertMany ((items.flatMap (ProtectedItem.named records)).flatMap expand) := by
  induction items generalizing s with
  | nil =>
    cases h
    rfl
  | cons item rest ih =>
    rw [List.foldlM_cons] at h
    obtain ⟨next, hs, hr⟩ := bind_eq_ok_iff.1 h
    rw [List.flatMap_cons, List.flatMap_append, VariableTable.insertMany_append,
      ← Section.table_add hs]
    exact ih hr

/-- The records that the protected section and the routines of a block may name. -/
def Block.knownRecords (b : Block) : List RecordType :=
  (recordsByName ((b.protectedItems.filterMap ProtectedItem.record?).map Record.flatten)).values

/-- Each record stands under its own name. -/
theorem name_eq_of_mem_recordsByName {records : List RecordType} {p : String × RecordType}
    (h : p ∈ (recordsByName records).toList) : p.2.name = p.1 := by
  have hfold : ∀ (records : List RecordType) (byName : Std.TreeMap String RecordType),
      (∀ p ∈ byName.toList, p.2.name = p.1) →
      ∀ p ∈ (records.foldl (fun byName r => byName.insert r.name r) byName).toList,
        p.2.name = p.1 := by
    intro records
    induction records with
    | nil => exact fun _ h => h
    | cons r rest ih =>
      intro byName h
      apply ih
      intro p hp
      have hperm := Std.TreeMap.toList_insert_perm (t := byName) (k := r.name) (v := r)
      rcases List.mem_cons.1 (hperm.subset hp) with rfl | hp
      · rfl
      · exact h p (List.mem_filter.1 hp).1
  exact hfold records {} (by simp) p h

/-- The records that a block knows have distinct names, also where it declares a name twice. -/
theorem Block.nodup_knownRecords (b : Block) : (b.knownRecords.map RecordType.name).Nodup := by
  unfold knownRecords
  generalize (b.protectedItems.filterMap ProtectedItem.record?).map Record.flatten = records
  have hvalues : (recordsByName records).values = (recordsByName records).toList.map Prod.snd := by
    show (recordsByName records).foldr (fun _ r rs => r :: rs) [] = _
    rw [Std.TreeMap.foldr_eq_foldr_toList, List.map_eq_foldr]
  rw [hvalues, List.map_map, List.Nodup, List.pairwise_map]
  refine Std.TreeMap.distinct_keys_toList.imp_of_mem fun {p q} hp hq hne he => hne ?_
  have hpq : p.1 = q.1 := by
    rw [← name_eq_of_mem_recordsByName hp, ← name_eq_of_mem_recordsByName hq]
    exact he
  rw [hpq, Std.compare_self]

/-- The variables that the entities of a block declare. -/
def Block.entityVariables (b : Block) : List (String × Entry) :=
  (b.entities.map fun (causality, d) => d.flatten causality).flatMap
    (GalecAudit.Declaration.named [])

/-- The variables that the protected section of a block declares. -/
def Block.sectionVariables (b : Block) : List (String × Entry) :=
  b.protectedItems.flatMap (ProtectedItem.named b.knownRecords)

/-- The tables of a block hold what its declarations add to them. -/
theorem Block.tables_of_flatten {b : Block} {block : GalecAudit.Block} (h : b.flatten = .ok block) :
    block.entities = VariableTable.ofVariables b.entityVariables ∧
      block.protectedVariables = VariableTable.ofVariables b.sectionVariables := by
  obtain ⟨inner, hi, h⟩ := bind_eq_ok_iff.1 h
  obtain ⟨routines, -, h⟩ := bind_eq_ok_iff.1 h
  cases h
  exact ⟨fst_declareEach [] {} _, Section.table_foldlM hi⟩

end Source
end GalecAudit
