import GalecAudit.Manifest.Basic
import GalecAudit.Proofs.Variable.Elements
import GalecAudit.Proofs.Variable.Table

/-!
# Tables of variables

A table that variables have been entered in knows the variables and the listed elements of their arrays.
Where no variable is named like an element, the two kinds of names do not meet.
-/
namespace GalecAudit

/-- What a variable adds to a table: the elements that are listed of it, and the variable itself. -/
def expand (v : String × Entry) : List (String × Entry) :=
  (elementPositions v.2.dimensions).map
      (fun index => (indexedName v.1 index, v.2.atIndex index)) ++ [v]

/-- The table of the given variables. -/
def VariableTable.ofVariables (vs : List (String × Entry)) : VariableTable :=
  empty.insertMany (vs.flatMap expand)

theorem VariableTable.declare_eq_insertMany (table : VariableTable) (name : String)
    (entry : Entry) : table.declare .element name entry = table.insertMany (expand (name, entry)) := by
  have hk : ((elementKeys name entry.dimensions).map fun p => (p.1, entry.atIndex p.2)) =
      (elementPositions entry.dimensions).map
        fun index => (indexedName name index, entry.atIndex index) := by
    rw [elementKeys_eq_map, List.map_map]
    rfl
  rw [expand, insertMany_append, ← hk]
  rfl

/-- Declaring variables one after another adds all that they expand to. -/
theorem VariableTable.foldl_declare (vs : List (String × Entry)) (table : VariableTable) :
    vs.foldl (fun table v => table.declare .element v.1 v.2) table =
      table.insertMany (vs.flatMap expand) := by
  induction vs generalizing table with
  | nil => rfl
  | cons v rest ih =>
    rw [List.foldl_cons, ih, declare_eq_insertMany, List.flatMap_cons, insertMany_append]

/-- The variables of a manifest as the entries of a table. -/
def Manifest.namedEntries (m : Manifest) : List (String × Entry) :=
  m.listed.map fun v => (v.name, entryOf v)

theorem Manifest.table_element (m : Manifest) :
    m.table .element = VariableTable.ofVariables m.namedEntries := by
  rw [VariableTable.ofVariables, ← VariableTable.foldl_declare, namedEntries, List.foldl_map]
  rfl

section Names

variable {vs : List (String × Entry)} {name key : String} {entry : Entry} {index : List Nat}

/-- A variable adds itself and its listed elements. -/
theorem mem_expand {owner : Entry} : (key, entry) ∈ expand (name, owner) ↔
    key = name ∧ entry = owner ∨ ∃ index ∈ elementPositions owner.dimensions,
      key = indexedName name index ∧ entry = owner.atIndex index := by
  unfold expand
  simp only [List.mem_append, List.mem_map, List.mem_singleton, Prod.mk.injEq, or_comm,
    @eq_comm _ key, @eq_comm _ entry]

theorem mem_expand_and_not_isElement {owner : Entry} (ho : owner.isElement = false) :
    (key, entry) ∈ expand (name, owner) ∧ entry.isElement = false ↔ key = name ∧ entry = owner := by
  rw [mem_expand]
  constructor
  · rintro ⟨⟨rfl, rfl⟩ | ⟨index, -, -, rfl⟩, he⟩
    · exact ⟨rfl, rfl⟩
    · cases he
  · rintro ⟨rfl, rfl⟩
    exact ⟨.inl ⟨rfl, rfl⟩, ho⟩

theorem mem_expand_and_isElement {owner : Entry} (ho : owner.isElement = false) :
    (key, entry) ∈ expand (name, owner) ∧ entry.isElement = true ↔
      ∃ index, (key, index) ∈ elementKeys name owner.dimensions ∧ entry = owner.atIndex index := by
  rw [mem_expand, elementKeys_eq_map]
  simp only [List.mem_map, Prod.mk.injEq]
  constructor
  · rintro ⟨⟨rfl, rfl⟩ | ⟨index, hi, rfl, rfl⟩, he⟩
    · rw [ho] at he
      cases he
    · exact ⟨index, ⟨index, hi, rfl, rfl⟩, rfl⟩
  · rintro ⟨_, ⟨index, hi, rfl, rfl⟩, rfl⟩
    exact ⟨.inr ⟨index, hi, rfl, rfl⟩, rfl⟩

/-- What one variable adds under a name is one entry. -/
theorem entry_unique_of_mem_expand {owner other : Entry} (h : (key, entry) ∈ expand (name, owner))
    (h' : (key, other) ∈ expand (name, owner)) : entry = other := by
  rcases mem_expand.1 h with ⟨rfl, rfl⟩ | ⟨index, hi, rfl, rfl⟩
  · rcases mem_expand.1 h' with ⟨-, rfl⟩ | ⟨position, -, hk, -⟩
    · rfl
    · exact absurd hk.symm (indexedName_ne_self key position)
  · rcases mem_expand.1 h' with ⟨hk, -⟩ | ⟨position, hp, hk, rfl⟩
    · exact absurd hk (indexedName_ne_self name index)
    · obtain ⟨-, rfl⟩ := indexedName_inj (ne_nil_of_mem_elementPositions hi)
        (ne_nil_of_mem_elementPositions hp) hk
      rfl

theorem mem_expand_iff : (key, entry) ∈ vs.flatMap expand ↔ (key, entry) ∈ vs ∨
    ∃ name owner, (name, owner) ∈ vs ∧ ∃ index ∈ elementPositions owner.dimensions,
      key = indexedName name index ∧ entry = owner.atIndex index := by
  simp only [List.mem_flatMap, Prod.exists, mem_expand]
  constructor
  · rintro ⟨name, owner, hm, ⟨rfl, rfl⟩ | helement⟩
    · exact .inl hm
    · exact .inr ⟨name, owner, hm, helement⟩
  · rintro (hm | ⟨name, owner, hm, helement⟩)
    · exact ⟨key, entry, hm, .inl ⟨rfl, rfl⟩⟩
    · exact ⟨name, owner, hm, .inr helement⟩

theorem mem_expand_iff_of_isPlain (hn : IsPlain name) :
    (name, entry) ∈ vs.flatMap expand ↔ (name, entry) ∈ vs := by
  rw [mem_expand_iff, or_iff_left]
  rintro ⟨other, owner, -, index, -, rfl, -⟩
  exact not_isPlain_indexedName other index hn

theorem contains_ofVariables : (VariableTable.ofVariables vs).contains key = true ↔
    ∃ entry, (key, entry) ∈ vs.flatMap expand := by
  rw [VariableTable.ofVariables, VariableTable.contains_insertMany]
  constructor
  · rintro (h | h)
    · obtain ⟨p, hp, rfl⟩ := List.mem_map.1 h
      exact ⟨p.2, hp⟩
    · obtain ⟨entry, he⟩ := VariableTable.contains_iff.1 h
      rw [VariableTable.get?_empty] at he
      cases he
  · rintro ⟨entry, he⟩
    exact .inl (List.mem_map_of_mem he)

/-- A table contains a plain name exactly if it is the name of a variable. -/
theorem contains_ofVariables_of_isPlain (hn : IsPlain name) :
    (VariableTable.ofVariables vs).contains name = true ↔ ∃ entry, (name, entry) ∈ vs := by
  simp only [contains_ofVariables, mem_expand_iff_of_isPlain hn]

/-- A table contains the name of an element exactly if the element is listed of a variable. -/
theorem contains_ofVariables_indexedName (hp : ∀ p ∈ vs, IsPlain p.1) (hi : index ≠ []) :
    (VariableTable.ofVariables vs).contains (indexedName name index) = true ↔
      ∃ entry, (name, entry) ∈ vs ∧ index ∈ elementPositions entry.dimensions := by
  rw [contains_ofVariables]
  constructor
  · rintro ⟨entry, he⟩
    rcases mem_expand_iff.1 he with hm | ⟨other, owner, hm, position, hpos, hk, -⟩
    · exact absurd (hp _ hm) (not_isPlain_indexedName name index)
    · obtain ⟨rfl, rfl⟩ := indexedName_inj hi (ne_nil_of_mem_elementPositions hpos) hk
      exact ⟨owner, hm, hpos⟩
  · rintro ⟨entry, hm, hpos⟩
    exact ⟨entry.atIndex index, mem_expand_iff.2 (.inr ⟨name, entry, hm, index, hpos, rfl, rfl⟩)⟩

theorem entry_unique (hd : (vs.map Prod.fst).Nodup) {other : Entry} (h : (name, entry) ∈ vs)
    (h' : (name, other) ∈ vs) : entry = other := by
  induction vs with
  | nil => cases h
  | cons p rest ih =>
    rw [List.map_cons, List.nodup_cons] at hd
    rcases List.mem_cons.1 h with rfl | hm <;> rcases List.mem_cons.1 h' with he | hm'
    · exact (Prod.mk.inj he).2.symm
    · exact absurd (List.mem_map_of_mem hm') hd.1
    · subst he
      exact absurd (List.mem_map_of_mem hm) hd.1
    · exact ih hd.2 hm hm'

/-- Of variables with distinct plain names each means itself. -/
theorem get?_ofVariables (hd : (vs.map Prod.fst).Nodup) (hn : IsPlain name) :
    (VariableTable.ofVariables vs).get? name = some entry ↔ (name, entry) ∈ vs := by
  rw [VariableTable.ofVariables, VariableTable.get?_empty_insertMany_iff, mem_expand_iff_of_isPlain hn]
  intro first second h h'
  rw [mem_expand_iff_of_isPlain hn] at h h'
  exact entry_unique hd h h'

/-- Under a name that only one variable adds, a table has what this variable adds. -/
theorem get?_ofVariables_of_only {v : String × Entry} (hv : v ∈ vs)
    (ho : ∀ w ∈ vs, ∀ other, (key, other) ∈ expand w → w = v) :
    (VariableTable.ofVariables vs).get? key = some entry ↔ (key, entry) ∈ expand v := by
  have hmem (other : Entry) : (key, other) ∈ vs.flatMap expand ↔ (key, other) ∈ expand v := by
    rw [List.mem_flatMap]
    constructor
    · rintro ⟨w, hw, hm⟩
      exact ho w hw other hm ▸ hm
    · exact fun hm => ⟨v, hv, hm⟩
  rw [VariableTable.ofVariables, VariableTable.get?_empty_insertMany_iff, hmem]
  intro first second h h'
  rw [hmem] at h h'
  exact entry_unique_of_mem_expand h h'

/-- What plain variables of different names add has different names. -/
theorem name_eq_of_mem_expand {other : String} {owner owner' entry' : Entry} (hn : IsPlain name)
    (hn' : IsPlain other) (h : (key, entry) ∈ expand (name, owner))
    (h' : (key, entry') ∈ expand (other, owner')) : name = other := by
  rcases mem_expand.1 h with ⟨rfl, -⟩ | ⟨index, hi, rfl, -⟩ <;>
    rcases mem_expand.1 h' with ⟨hk, -⟩ | ⟨position, hp, hk, -⟩
  · exact hk
  · exact absurd (hk ▸ hn) (not_isPlain_indexedName other position)
  · exact absurd (hk ▸ hn') (not_isPlain_indexedName name index)
  · exact (indexedName_inj (ne_nil_of_mem_elementPositions hi)
      (ne_nil_of_mem_elementPositions hp) hk).1

/-- Where each name has one entry and no brackets at its end, the table lists all that is added. -/
theorem get?_ofVariables_iff_mem_expand (hp : ∀ v ∈ vs, IsPlain v.1)
    (hu : ∀ {name entry other}, (name, entry) ∈ vs → (name, other) ∈ vs → entry = other) :
    (VariableTable.ofVariables vs).get? key = some entry ↔ (key, entry) ∈ vs.flatMap expand := by
  refine VariableTable.get?_empty_insertMany_iff fun first second h h' => ?_
  obtain ⟨⟨name, owner⟩, hv, hown⟩ := List.mem_flatMap.1 h
  obtain ⟨⟨name', owner'⟩, hv', hown'⟩ := List.mem_flatMap.1 h'
  obtain rfl := name_eq_of_mem_expand (hp _ hv) (hp _ hv') hown hown'
  obtain rfl := hu hv hv'
  exact entry_unique_of_mem_expand hown hown'

/-- The table of the variables of two lists is the union of their tables. -/
theorem get?_union_ofVariables (vs ws : List (String × Entry)) (key : String) :
    ((VariableTable.ofVariables vs).union (VariableTable.ofVariables ws)).get? key =
      (VariableTable.ofVariables (vs ++ ws)).get? key := by
  rw [VariableTable.get?_union, VariableTable.ofVariables, VariableTable.ofVariables,
    VariableTable.ofVariables, List.flatMap_append, VariableTable.insertMany_append,
    ← VariableTable.get?_insertMany]

end Names

end GalecAudit
