import GalecAudit.Proofs.Variable.Expansion

/-!
# Repeated declarations

What a table knows when names are declared again with other types and sizes. The last declaration of a
name decides what the name means, but it does not take back the elements of earlier ones: an element
means that of the last declaration which lists it.
-/
namespace GalecAudit

/-- The declarations that no later one of the same name follows, in their order. -/
def lastDeclarations : List (String × Entry) → List (String × Entry)
  | [] => []
  | v :: rest =>
    if ∃ w ∈ rest, w.1 = v.1 then lastDeclarations rest else v :: lastDeclarations rest

section Last

variable {vs rest : List (String × Entry)} {v : String × Entry} {name : String} {entry : Entry}

theorem lastDeclarations_sublist (vs : List (String × Entry)) :
    (lastDeclarations vs).Sublist vs := by
  induction vs with
  | nil => exact .slnil
  | cons v rest ih =>
    rw [lastDeclarations]
    split
    · exact ih.cons v
    · exact ih.cons_cons v

theorem mem_of_mem_lastDeclarations (h : v ∈ lastDeclarations vs) : v ∈ vs :=
  (lastDeclarations_sublist vs).subset h

/-- In front of other declarations a declaration is a last one only if these lack its name. -/
theorem mem_lastDeclarations_cons : (name, entry) ∈ lastDeclarations (v :: rest) ↔
    (name, entry) ∈ lastDeclarations rest ∨ (¬ ∃ w ∈ rest, w.1 = name) ∧ v = (name, entry) := by
  rw [lastDeclarations]
  split
  · next h =>
    rw [iff_self_or]
    rintro ⟨hnew, rfl⟩
    exact absurd h hnew
  · next h =>
    rw [List.mem_cons, or_comm]
    apply or_congr_right
    constructor
    · rintro rfl
      exact ⟨h, rfl⟩
    · rintro ⟨-, rfl⟩
      rfl

theorem exists_mem_lastDeclarations_iff :
    (∃ entry, (name, entry) ∈ lastDeclarations vs) ↔ ∃ w ∈ vs, w.1 = name := by
  constructor
  · rintro ⟨entry, h⟩
    exact ⟨_, mem_of_mem_lastDeclarations h, rfl⟩
  · intro h
    induction vs with
    | nil => simp at h
    | cons v rest ih =>
      simp only [mem_lastDeclarations_cons]
      by_cases hr : ∃ w ∈ rest, w.1 = name
      · obtain ⟨entry, he⟩ := ih hr
        exact ⟨entry, .inl he⟩
      · obtain ⟨w, hw, rfl⟩ := h
        rcases List.mem_cons.1 hw with rfl | hw
        · exact ⟨w.2, .inr ⟨hr, rfl⟩⟩
        · exact absurd ⟨w, hw, rfl⟩ hr

/-- A name has one last declaration. -/
theorem last_unique {other : Entry} (h : (name, entry) ∈ lastDeclarations vs)
    (h' : (name, other) ∈ lastDeclarations vs) : entry = other := by
  induction vs with
  | nil => cases h
  | cons v rest ih =>
    rcases mem_lastDeclarations_cons.1 h with hr | ⟨hnew, rfl⟩ <;>
      rcases mem_lastDeclarations_cons.1 h' with hr' | ⟨hnew', hv⟩
    · exact ih hr hr'
    · exact absurd (exists_mem_lastDeclarations_iff.1 ⟨_, hr⟩) hnew'
    · exact absurd (exists_mem_lastDeclarations_iff.1 ⟨_, hr'⟩) hnew
    · exact (Prod.mk.inj hv).2

/-- A last declaration stays one where others are left out. -/
theorem mem_lastDeclarations_filter {p : String × Entry → Bool} (hp : p v = true)
    (h : v ∈ lastDeclarations vs) : v ∈ lastDeclarations (vs.filter p) := by
  induction vs with
  | nil => cases h
  | cons w rest ih =>
    rcases mem_lastDeclarations_cons.1 h with hr | ⟨hnew, rfl⟩
    · by_cases hw : p w = true
      · rw [List.filter_cons_of_pos hw]
        exact mem_lastDeclarations_cons.2 (.inl (ih hr))
      · rw [List.filter_cons_of_neg hw]
        exact ih hr
    · rw [List.filter_cons_of_pos hp]
      refine mem_lastDeclarations_cons.2 (.inr ⟨fun ⟨u, hu, hn⟩ => hnew ?_, rfl⟩)
      exact ⟨u, (List.mem_filter.1 hu).1, hn⟩

/-- Declarations of distinct names are all last ones. -/
theorem lastDeclarations_lastDeclarations (vs : List (String × Entry)) :
    lastDeclarations (lastDeclarations vs) = lastDeclarations vs := by
  induction vs with
  | nil => rfl
  | cons v rest ih =>
    rw [lastDeclarations]
    split
    · exact ih
    · next h =>
      have hnew : ¬ ∃ w ∈ lastDeclarations rest, w.1 = v.1 :=
        fun ⟨w, hw, hn⟩ => h ⟨w, mem_of_mem_lastDeclarations hw, hn⟩
      rw [lastDeclarations, if_neg hnew, ih]

end Last

namespace VariableTable

section Lookup

variable {vs : List (String × Entry)} {name : String} {entry : Entry} {index : List Nat}

/-- A name that means something of its last declaration means nothing only if it is not declared. -/
theorem eq_none_iff_of_last {found : Option Entry} {f : Entry → Entry}
    (h : ∀ entry, found = some entry ↔
      ∃ owner, (name, owner) ∈ lastDeclarations vs ∧ entry = f owner) :
    found = none ↔ ¬ ∃ w ∈ vs, w.1 = name := by
  rw [Option.eq_none_iff_forall_ne_some, ← exists_mem_lastDeclarations_iff]
  simp only [Ne, h]
  constructor
  · rintro hnone ⟨owner, ho⟩
    exact hnone _ ⟨owner, ho, rfl⟩
  · rintro hnew entry ⟨owner, ho, -⟩
    exact hnew ⟨owner, ho⟩

/-- What is declared later comes before the first declaration. -/
theorem get?_ofVariables_cons (v : String × Entry) (rest : List (String × Entry)) (key : String) :
    (ofVariables (v :: rest)).get? key =
      ((ofVariables rest).get? key).or ((ofVariables [v]).get? key) := by
  rw [← get?_union, get?_union_ofVariables]
  rfl

theorem get?_ofVariables_singleton {v : String × Entry} {key : String} :
    (ofVariables [v]).get? key = some entry ↔ (key, entry) ∈ expand v :=
  get?_ofVariables_of_only (List.mem_singleton_self v) fun _ hw _ _ => List.mem_singleton.1 hw

/-- A plain name means its last declaration. -/
theorem get?_ofVariables_last (hn : IsPlain name) :
    (ofVariables vs).get? name = some entry ↔ (name, entry) ∈ lastDeclarations vs := by
  induction vs generalizing entry with
  | nil =>
    show empty.get? name = some entry ↔ (name, entry) ∈ []
    rw [get?_empty]
    simp
  | cons v rest ih =>
    have hnone : (ofVariables rest).get? name = none ↔ ¬ ∃ w ∈ rest, w.1 = name := by
      apply eq_none_iff_of_last (f := id)
      intro entry
      rw [ih]
      simp
    have hown : (name, entry) ∈ expand v ↔ v = (name, entry) := by
      have h : (name, entry) ∈ [v].flatMap expand ↔ (name, entry) ∈ [v] :=
        mem_expand_iff_of_isPlain hn
      rw [List.flatMap_singleton, List.mem_singleton] at h
      rw [h, eq_comm]
    rw [get?_ofVariables_cons, Option.or_eq_some_iff, ih, mem_lastDeclarations_cons, hnone,
      get?_ofVariables_singleton, hown]

/-- Under the name of an element a plain variable adds that element of its own only. -/
theorem mem_expand_indexedName {v : String × Entry} (hn : IsPlain v.1) (hi : index ≠ []) :
    (indexedName name index, entry) ∈ expand v ↔
      index ∈ elementPositions v.2.dimensions ∧ v.1 = name ∧ entry = v.2.atIndex index := by
  obtain ⟨other, owner⟩ := v
  rw [mem_expand]
  constructor
  · rintro (⟨rfl, -⟩ | ⟨position, hp, hk, rfl⟩)
    · exact absurd hn (not_isPlain_indexedName name index)
    · obtain ⟨rfl, rfl⟩ := indexedName_inj hi (ne_nil_of_mem_elementPositions hp) hk
      exact ⟨hp, rfl, rfl⟩
  · rintro ⟨hp, rfl, rfl⟩
    exact .inr ⟨index, hp, rfl, rfl⟩

/-- The declarations that list the element at a position. -/
def listing (index : List Nat) (vs : List (String × Entry)) : List (String × Entry) :=
  vs.filter fun v => (elementPositions v.2.dimensions).contains index

/-- An element means that of the last declaration that lists it, which need not be the last one of its
name. -/
theorem get?_ofVariables_element (hplain : ∀ v ∈ vs, IsPlain v.1) (hi : index ≠ []) :
    (ofVariables vs).get? (indexedName name index) = some entry ↔
      ∃ owner, (name, owner) ∈ lastDeclarations (listing index vs) ∧
        entry = owner.atIndex index := by
  induction vs generalizing entry with
  | nil =>
    show empty.get? (indexedName name index) = some entry ↔ _
    rw [get?_empty]
    simp [listing, lastDeclarations]
  | cons v rest ih =>
    rw [List.forall_mem_cons] at hplain
    have hnone := eq_none_iff_of_last fun entry => @ih entry hplain.2
    rw [get?_ofVariables_cons, Option.or_eq_some_iff, ih hplain.2, hnone,
      get?_ofVariables_singleton, mem_expand_indexedName hplain.1 hi]
    by_cases hl : index ∈ elementPositions v.2.dimensions
    · have hcons : listing index (v :: rest) = v :: listing index rest :=
        List.filter_cons_of_pos (List.contains_iff_mem.2 hl)
      simp only [hcons, mem_lastDeclarations_cons]
      constructor
      · rintro (⟨owner, ho, he⟩ | ⟨hnew, -, rfl, he⟩)
        · exact ⟨owner, .inl ho, he⟩
        · exact ⟨v.2, .inr ⟨hnew, rfl⟩, he⟩
      · rintro ⟨owner, ho | ⟨hnew, rfl⟩, he⟩
        · exact .inl ⟨owner, ho, he⟩
        · exact .inr ⟨hnew, hl, rfl, he⟩
    · have hcons : listing index (v :: rest) = listing index rest :=
        List.filter_cons_of_neg fun h => hl (List.contains_iff_mem.1 h)
      rw [hcons]
      simp [hl]

end Lookup

/-- Whether two tables list the same is decided by the plain names and the names of elements. -/
theorem toList_ofVariables_eq_iff {vs ws : List (String × Entry)} (hv : ∀ v ∈ vs, IsPlain v.1)
    (hw : ∀ w ∈ ws, IsPlain w.1) :
    (ofVariables vs).toList = (ofVariables ws).toList ↔
      (∀ name, IsPlain name → (ofVariables vs).get? name = (ofVariables ws).get? name) ∧
      ∀ name (index : List Nat), index ≠ [] → (ofVariables vs).get? (indexedName name index) =
        (ofVariables ws).get? (indexedName name index) := by
  rw [toList_eq_iff]
  constructor
  · intro h
    exact ⟨fun name _ => h name, fun name index _ => h (indexedName name index)⟩
  · rintro ⟨hplain, helement⟩ key
    by_cases hk : IsPlain key
    · exact hplain key hk
    by_cases he : ∃ name, ∃ index : List Nat, index ≠ [] ∧ key = indexedName name index
    · obtain ⟨name, index, hi, rfl⟩ := he
      exact helement name index hi
    -- no variable adds a name of another kind
    have hnone {us : List (String × Entry)} (hu : ∀ u ∈ us, IsPlain u.1) :
        (ofVariables us).get? key = none := by
      refine Option.eq_none_iff_forall_ne_some.2 fun entry hentry => ?_
      obtain ⟨other, ho⟩ := contains_ofVariables.1 (contains_iff.2 ⟨entry, hentry⟩)
      rcases mem_expand_iff.1 ho with hm | ⟨name, owner, -, index, hi, rfl, -⟩
      · exact hk (hu _ hm)
      · exact he ⟨name, index, ne_nil_of_mem_elementPositions hi, rfl⟩
    rw [hnone hv, hnone hw]

section Exact

variable {vs : List (String × Entry)} {name : String} {entry : Entry}

/-- Of the last declaration of a name all listed elements are its own. -/
theorem get?_ofVariables_of_mem_last (hplain : ∀ v ∈ vs, IsPlain v.1)
    (h : (name, entry) ∈ lastDeclarations vs) {index : List Nat}
    (hi : index ∈ elementPositions entry.dimensions) :
    (ofVariables vs).get? (indexedName name index) = some (entry.atIndex index) := by
  have hlast : (name, entry) ∈ lastDeclarations (listing index vs) :=
    mem_lastDeclarations_filter (List.contains_iff_mem.2 hi) h
  exact (get?_ofVariables_element hplain (ne_nil_of_mem_elementPositions hi)).2 ⟨entry, hlast, rfl⟩

theorem get?_ofVariables_element_eq_none_iff (hplain : ∀ v ∈ vs, IsPlain v.1) {index : List Nat}
    (hi : index ≠ []) : (ofVariables vs).get? (indexedName name index) = none ↔
      ∀ owner, (name, owner) ∈ vs → index ∉ elementPositions owner.dimensions := by
  rw [eq_none_iff_of_last fun _ => get?_ofVariables_element hplain hi]
  constructor
  · intro hnew owner ho hp
    exact hnew ⟨_, List.mem_filter.2 ⟨ho, List.contains_iff_mem.2 hp⟩, rfl⟩
  · rintro hnone ⟨⟨_, owner⟩, ho, rfl⟩
    obtain ⟨hm, hp⟩ := List.mem_filter.1 ho
    exact hnone owner hm (List.contains_iff_mem.1 hp)

/-- The elements of a name are those of its last declaration exactly if no earlier one lists others. -/
theorem elements_of_last_iff (hplain : ∀ v ∈ vs, IsPlain v.1)
    (h : (name, entry) ∈ lastDeclarations vs) :
    (∀ index, index ≠ [] → (ofVariables vs).get? (indexedName name index) =
        if index ∈ elementPositions entry.dimensions then some (entry.atIndex index) else none) ↔
      ∀ other, (name, other) ∈ vs → FitsWithin other.dimensions entry.dimensions := by
  constructor
  · intro hown other ho
    apply elementPositions_subset_iff.1
    intro index hi
    by_contra hnew
    have hne := ne_nil_of_mem_elementPositions hi
    have hget := hown index hne
    rw [if_neg hnew, get?_ofVariables_element_eq_none_iff hplain hne] at hget
    exact hget other ho hi
  · intro hfits index hne
    split
    · next hi => exact get?_ofVariables_of_mem_last hplain h hi
    · next hi =>
      rw [get?_ofVariables_element_eq_none_iff hplain hne]
      intro other ho hp
      exact hi (elementPositions_subset_iff.2 (hfits other ho) index hp)

/-- Tables of repeated declarations and of the last ones agree exactly if the arrays of each name fit
within the last one. -/
theorem toList_ofVariables_last_iff (hplain : ∀ v ∈ vs, IsPlain v.1) :
    (ofVariables vs).toList = (ofVariables (lastDeclarations vs)).toList ↔
      ∀ name entry other, (name, entry) ∈ lastDeclarations vs → (name, other) ∈ vs →
        FitsWithin other.dimensions entry.dimensions := by
  have hlast : ∀ v ∈ lastDeclarations vs, IsPlain v.1 :=
    fun v hv => hplain v (mem_of_mem_lastDeclarations hv)
  -- among the last declarations each name has one, so its elements are those of that one
  have hown {name : String} {entry : Entry} (h : (name, entry) ∈ lastDeclarations vs)
      (index : List Nat) (hi : index ≠ []) :
      (ofVariables (lastDeclarations vs)).get? (indexedName name index) =
        if index ∈ elementPositions entry.dimensions then some (entry.atIndex index) else none := by
    refine (elements_of_last_iff hlast ?_).2 (fun other ho => ?_) index hi
    · rwa [lastDeclarations_lastDeclarations]
    · rw [last_unique ho h]
      exact fun _ => List.forall₂_refl _
  rw [toList_ofVariables_eq_iff hplain hlast]
  constructor
  · rintro ⟨-, helement⟩ name entry other h
    refine (elements_of_last_iff hplain h).1 (fun index hi => ?_) other
    rw [helement name index hi, hown h index hi]
  · intro hfits
    constructor
    · intro name hn
      apply Option.ext
      intro entry
      rw [get?_ofVariables_last hn, get?_ofVariables_last hn, lastDeclarations_lastDeclarations]
    · intro name index hi
      by_cases hd : ∃ entry, (name, entry) ∈ lastDeclarations vs
      · obtain ⟨entry, h⟩ := hd
        rw [hown h index hi]
        exact (elements_of_last_iff hplain h).2 (fun other => hfits name entry other h) index hi
      · have hnew : ∀ owner, (name, owner) ∉ vs :=
          fun owner ho => hd (exists_mem_lastDeclarations_iff.2 ⟨_, ho, rfl⟩)
        have hnone := (get?_ofVariables_element_eq_none_iff hplain hi).2
          fun owner ho => absurd ho (hnew owner)
        have hnone' := (get?_ofVariables_element_eq_none_iff hlast hi).2
          fun owner ho => absurd (mem_of_mem_lastDeclarations ho) (hnew owner)
        rw [hnone, hnone']

end Exact

/-- What repeated declarations leave in a table, where no name ends with a bracket. A name means its last
declaration, and the elements of that declaration are its own. But elements of earlier declarations are
not taken back: an element means that of the last declaration that lists it. So the elements of a name
are those of its last declaration exactly if each earlier array of the name fits within the last one, and
the table is that of the last declarations alone exactly if this holds of all names. -/
theorem redeclaration_exact {vs : List (String × Entry)} (hplain : ∀ v ∈ vs, IsPlain v.1) :
    let table := vs.foldl (fun table v => table.declare .element v.1 v.2) empty
    let last := (lastDeclarations vs).foldl (fun table v => table.declare .element v.1 v.2) empty
    (∀ name, IsPlain name →
      ∀ entry, table.get? name = some entry ↔ (name, entry) ∈ lastDeclarations vs) ∧
    (∀ name index, index ≠ [] → ∀ entry, table.get? (indexedName name index) = some entry ↔
      ∃ owner, (name, owner) ∈ lastDeclarations (listing index vs) ∧
        entry = owner.atIndex index) ∧
    (∀ name entry, (name, entry) ∈ lastDeclarations vs →
      (∀ index ∈ elementPositions entry.dimensions,
        table.get? (indexedName name index) = some (entry.atIndex index)) ∧
      ((∀ index, index ≠ [] → table.get? (indexedName name index) =
          if index ∈ elementPositions entry.dimensions then some (entry.atIndex index) else none) ↔
        ∀ other, (name, other) ∈ vs → FitsWithin other.dimensions entry.dimensions)) ∧
    (table.toList = last.toList ↔
      ∀ name entry other, (name, entry) ∈ lastDeclarations vs → (name, other) ∈ vs →
        FitsWithin other.dimensions entry.dimensions) := by
  intro table last
  have htable : table = ofVariables vs := foldl_declare vs empty
  have hlast : last = ofVariables (lastDeclarations vs) := foldl_declare _ empty
  rw [htable, hlast]
  refine ⟨fun name hn entry => get?_ofVariables_last hn,
    fun name index hi entry => get?_ofVariables_element hplain hi, fun name entry h => ⟨?_, ?_⟩,
    toList_ofVariables_last_iff hplain⟩
  · exact fun index hi => get?_ofVariables_of_mem_last hplain h hi
  · exact elements_of_last_iff hplain h

/-- Three real numbers, declared again as two integers. -/
def shrunkArray : List (String × Entry) :=
  [("x", { type := .real, causality := .state, line := 1, dimensions := [3] }),
   ("x", { type := .integer, causality := .state, line := 2, dimensions := [2] })]

/-- The third real number is still there behind the two integers. -/
theorem stale_element_of_shrunkArray :
    let table := shrunkArray.foldl (fun table v => table.declare .element v.1 v.2) empty
    let last := (lastDeclarations shrunkArray).foldl
      (fun table v => table.declare .element v.1 v.2) empty
    table.get? "x" = some { type := .integer, causality := .state, line := 2, dimensions := [2] } ∧
      table.get? (indexedName "x" [3]) =
        some { type := .real, causality := .state, line := 1, elementIndex := some [3] } ∧
      last.get? (indexedName "x" [3]) = none ∧ table.toList ≠ last.toList := by
  decide +kernel

/-- Two real numbers, declared again as three integers after another variable. -/
def grownArray : List (String × Entry) :=
  [("x", { type := .real, causality := .state, line := 1, dimensions := [2] }),
   ("y", { type := .boolean, causality := .state, line := 2 }),
   ("x", { type := .integer, causality := .state, line := 3, dimensions := [3] })]

/-- An array that grows keeps nothing of its earlier declaration. -/
theorem redeclaration_grownArray :
    (∀ v ∈ grownArray, IsPlain v.1) ∧
    (grownArray.foldl (fun table v => table.declare .element v.1 v.2) empty).toList =
      ((lastDeclarations grownArray).foldl
        (fun table v => table.declare .element v.1 v.2) empty).toList := by
  have hplain : ∀ v ∈ grownArray, IsPlain v.1 := by decide
  have hfits : ∀ v ∈ lastDeclarations grownArray, ∀ w ∈ grownArray, w.1 = v.1 →
      FitsWithin w.2.dimensions v.2.dimensions := by decide
  obtain ⟨-, -, -, hexact⟩ := redeclaration_exact hplain
  exact ⟨hplain, hexact.2 fun name entry other h ho => hfits _ h _ ho rfl⟩

end VariableTable

end GalecAudit
