import GalecAudit.Variable.Table

/-!
# Look-up in tables

A table is known by its look-up: what a name means after entries have been added, and which pairs of
names and entries a table lists.
-/
namespace GalecAudit.VariableTable

variable (table : VariableTable)

theorem get?_empty (name : String) : empty.get? name = none :=
  Std.TreeMap.getElem?_emptyc

theorem get?_insert (key : String) (entry : Entry) (name : String) :
    (table.insert key entry).get? name = if key = name then some entry else table.get? name := by
  have h := Std.TreeMap.getElem?_insert (t := table.entries) (k := key) (a := name) (v := entry)
  simp only [Std.LawfulEqOrd.compare_eq_iff_eq] at h
  exact h

variable {table} {name : String} {entry : Entry}

/-- A table lists exactly the pairs that look-up finds. -/
theorem mem_toList_iff : (name, entry) ∈ table.toList ↔ table.get? name = some entry :=
  Std.TreeMap.mem_toList_iff_getElem?_eq_some

theorem contains_iff : table.contains name = true ↔ ∃ entry, table.get? name = some entry := by
  rw [← Option.isSome_iff_exists]
  exact iff_of_eq (congrArg (· = true) Std.TreeMap.contains_eq_isSome_getElem?)

theorem contains_insert (key : String) :
    (table.insert key entry).contains name = true ↔ key = name ∨ table.contains name = true := by
  rw [contains_iff, contains_iff, get?_insert]
  split
  · next h => simp [h]
  · next h => simp [h]

variable {entries : List (String × Entry)}

theorem contains_insertMany :
    (table.insertMany entries).contains name = true ↔
      name ∈ entries.map Prod.fst ∨ table.contains name = true := by
  induction entries generalizing table with
  | nil => simp [insertMany]
  | cons p rest ih =>
    obtain ⟨key, entry⟩ := p
    have hr := @ih (table.insert key entry)
    rw [contains_insert] at hr
    rw [List.map_cons, List.mem_cons, or_assoc, or_left_comm, @eq_comm _ name]
    exact hr

/-- What a name means after entries have been added is one of them or what it meant before. -/
theorem mem_of_get?_insertMany (h : (table.insertMany entries).get? name = some entry) :
    (name, entry) ∈ entries ∨ table.get? name = some entry := by
  induction entries generalizing table with
  | nil => exact .inr h
  | cons p rest ih =>
    obtain ⟨key, first⟩ := p
    rcases @ih (table.insert key first) h with hm | ht
    · exact .inl (List.mem_cons_of_mem _ hm)
    · rw [get?_insert] at ht
      split at ht
      · next hk =>
        cases ht
        exact .inl (hk ▸ List.mem_cons_self)
      · exact .inr ht

/-- What a name means in a table of entries is one of them. -/
theorem mem_of_get?_empty_insertMany (h : (empty.insertMany entries).get? name = some entry) :
    (name, entry) ∈ entries := by
  rcases mem_of_get?_insertMany h with hm | he
  · exact hm
  · rw [get?_empty] at he
    cases he

theorem insertMany_append (more : List (String × Entry)) :
    table.insertMany (entries ++ more) = (table.insertMany entries).insertMany more :=
  List.foldl_append

/-- Added entries come before those that were there. -/
theorem get?_insertMany (table : VariableTable) (entries : List (String × Entry)) (name : String) :
    (table.insertMany entries).get? name =
      ((empty.insertMany entries).get? name).or (table.get? name) := by
  induction entries generalizing table with
  | nil =>
    change table.get? name = (empty.get? name).or (table.get? name)
    rw [get?_empty, Option.none_or]
  | cons p rest ih =>
    obtain ⟨key, first⟩ := p
    change ((table.insert key first).insertMany rest).get? name =
      (((empty.insert key first).insertMany rest).get? name).or (table.get? name)
    rw [ih (table.insert key first), ih (empty.insert key first), Option.or_assoc, get?_insert,
      get?_insert, get?_empty]
    split
    · rfl
    · rw [Option.none_or]

/-- A name with one entry among those that are added means that entry. -/
theorem get?_insertMany_of_unique (hm : (name, entry) ∈ entries)
    (hu : ∀ other, (name, other) ∈ entries → other = entry) :
    (table.insertMany entries).get? name = some entry := by
  have hc : (empty.insertMany entries).contains name = true :=
    contains_insertMany.2 (.inl (List.mem_map_of_mem hm))
  obtain ⟨found, hf⟩ := contains_iff.1 hc
  rw [get?_insertMany, hf, hu found (mem_of_get?_empty_insertMany hf)]
  rfl

/-- A table of entries knows all entries of a name that has at most one. -/
theorem get?_empty_insertMany_iff
    (hu : ∀ first second, (name, first) ∈ entries → (name, second) ∈ entries → first = second) :
    (empty.insertMany entries).get? name = some entry ↔ (name, entry) ∈ entries :=
  ⟨mem_of_get?_empty_insertMany,
    fun hm => get?_insertMany_of_unique hm fun other ho => hu other entry ho hm⟩

/-- In a union the entries of the second table come before those of the first. -/
theorem get?_union (table other : VariableTable) (name : String) :
    (table.union other).get? name = (other.get? name).or (table.get? name) := by
  have hlist : (empty.insertMany other.toList).get? name = other.get? name := by
    refine Option.ext fun entry => ?_
    rw [get?_empty_insertMany_iff, mem_toList_iff]
    intro first second h h'
    rw [mem_toList_iff] at h h'
    exact Option.some.inj (h.symm.trans h')
  rw [union, get?_insertMany, hlist]

theorem contains_congr {a b : VariableTable} (h : a.get? name = b.get? name) :
    a.contains name = b.contains name := by
  rw [Bool.eq_iff_iff, contains_iff, contains_iff, h]

/-- A table lists its names in increasing order. -/
theorem pairwise_toList (table : VariableTable) : table.toList.Pairwise fun a b => a.1 < b.1 := by
  have hordered := Std.TreeMap.ordered_keys_toList (t := table.entries)
  exact hordered.imp fun h => compareOfLessAndEq_eq_lt.1 h

/-- Lists in the order of the names have the same elements only if they are the same. -/
theorem eq_of_pairwise_of_mem_iff {l l' : List (String × Entry)}
    (hl : l.Pairwise fun a b => a.1 < b.1) (hl' : l'.Pairwise fun a b => a.1 < b.1)
    (h : ∀ p, p ∈ l ↔ p ∈ l') : l = l' := by
  have hne {a b : String × Entry} (hlt : a.1 < b.1) : a ≠ b := by
    rintro rfl
    exact String.lt_irrefl _ hlt
  have hperm : l.Perm l' := (List.perm_ext_iff_of_nodup (hl.imp hne) (hl'.imp hne)).2 h
  refine hperm.eq_of_pairwise (fun a b _ _ hab hba => ?_) hl hl'
  exact absurd (String.lt_trans hab hba) (String.lt_irrefl _)

/-- Tables list the same exactly if all names mean the same in them. -/
theorem toList_eq_iff {a b : VariableTable} :
    a.toList = b.toList ↔ ∀ name, a.get? name = b.get? name := by
  constructor
  · intro h name
    apply Option.ext
    intro entry
    rw [← mem_toList_iff, ← mem_toList_iff, h]
  · intro h
    apply eq_of_pairwise_of_mem_iff a.pairwise_toList b.pairwise_toList
    rintro ⟨name, entry⟩
    rw [mem_toList_iff, mem_toList_iff, h]

end GalecAudit.VariableTable
