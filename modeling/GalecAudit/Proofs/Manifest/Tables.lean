import GalecAudit.Proofs.Variable.Redeclaration

/-!
# The two tables of a manifest

A manifest makes a table of all variables element by element, and one of its interface variables as
wholes. Both keep the last of several entries for a name, but the second one leaves variables out before
it enters the others. So it keeps an interface variable whose name the first table gives to a later
variable that is not at the interface, or to an element of a later array.
-/
namespace GalecAudit

/-- The variable enters a name in the table of elements: its own, or that of one of its elements. -/
def ListedVariable.Enters (v : ListedVariable) (key : String) : Prop :=
  ∃ entry, (key, entry) ∈ expand (v.name, Manifest.entryOf v)

/-- Behind the last interface variable of a name no variable enters the name. -/
def Manifest.KeepsInterface (m : Manifest) : Prop :=
  ∀ v behind, v :: behind <:+ m.listed → v.causality.isInterface = true →
    (∀ w ∈ behind, w.causality.isInterface = true → w.name ≠ v.name) →
      ∀ w ∈ behind, ¬ w.Enters v.name

namespace VariableTable

theorem get?_insertMany_cons (name : String) (entry : Entry) (rest : List (String × Entry))
    (key : String) : (empty.insertMany ((name, entry) :: rest)).get? key =
      ((empty.insertMany rest).get? key).or (if name = key then some entry else none) := by
  show ((empty.insert name entry).insertMany rest).get? key = _
  rw [get?_insertMany, get?_insert, get?_empty]

end VariableTable

section Listed

variable {v : ListedVariable} {rest : List ListedVariable} {key : String} {entry : Entry}

/-- What a name means in a table of listed variables. -/
def found? (mode : TableMode) (vs : List ListedVariable) (key : String) : Option Entry :=
  (Manifest.table { listed := vs } mode).get? key

theorem found?_element_cons (v : ListedVariable) (rest : List ListedVariable) (key : String) :
    found? .element (v :: rest) key =
      (found? .element rest key).or (found? .element [v] key) := by
  unfold found?
  rw [Manifest.table_element, Manifest.table_element, Manifest.table_element]
  exact VariableTable.get?_ofVariables_cons (v.name, Manifest.entryOf v) _ key

theorem found?_aggregate_cons (v : ListedVariable) (rest : List ListedVariable) (key : String) :
    found? .aggregate (v :: rest) key =
      (found? .aggregate rest key).or
        (if v.causality.isInterface = true ∧ v.name = key then some (Manifest.entryOf v)
        else none) := by
  have htable (vs : List ListedVariable) : Manifest.table { listed := vs } .aggregate =
      VariableTable.empty.insertMany
        ((vs.filter fun v => v.causality.isInterface).map fun v => (v.name, Manifest.entryOf v)) := by
    rw [VariableTable.insertMany, List.foldl_map]
    rfl
  unfold found?
  rw [htable, htable, List.filter_cons]
  split
  · next hi =>
    rw [List.map_cons, VariableTable.get?_insertMany_cons]
    simp only [hi, true_and]
  · next hi => simp [hi]

theorem found?_nil (mode : TableMode) (key : String) : found? mode [] key = none := by
  cases mode <;> exact VariableTable.get?_empty key

theorem found?_element_singleton :
    found? .element [v] key = some entry ↔ (key, entry) ∈ expand (v.name, Manifest.entryOf v) := by
  unfold found?
  rw [Manifest.table_element]
  exact VariableTable.get?_ofVariables_singleton

theorem found?_element_eq_none_iff {vs : List ListedVariable} :
    found? .element vs key = none ↔ ∀ w ∈ vs, ¬ w.Enters key := by
  induction vs with
  | nil => simp [found?_nil]
  | cons v rest ih =>
    have hown : found? .element [v] key = none ↔ ¬ v.Enters key := by
      rw [Option.eq_none_iff_forall_ne_some]
      simp only [Ne, found?_element_singleton, ListedVariable.Enters, not_exists]
    rw [found?_element_cons, Option.or_eq_none_iff, ih, hown, List.forall_mem_cons, and_comm]

theorem found?_aggregate_eq_none_iff {vs : List ListedVariable} :
    found? .aggregate vs key = none ↔
      ∀ w ∈ vs, w.causality.isInterface = true → w.name ≠ key := by
  induction vs with
  | nil => simp [found?_nil]
  | cons v rest ih =>
    rw [found?_aggregate_cons, Option.or_eq_none_iff, ih, List.forall_mem_cons, and_comm]
    simp

/-- A name that no variable enters is the name of no interface variable. -/
theorem found?_aggregate_eq_none {vs : List ListedVariable} (h : found? .element vs key = none) :
    found? .aggregate vs key = none := by
  rw [found?_element_eq_none_iff] at h
  rw [found?_aggregate_eq_none_iff]
  rintro w hw - rfl
  exact h w hw ⟨_, mem_expand.2 (.inl ⟨rfl, rfl⟩)⟩

/-- The entry of a variable at the interface as a whole. -/
def Entry.isInterface (entry : Entry) : Bool := !entry.isElement && entry.causality.isInterface

/-- Of what one variable enters, only the variable itself can be at the interface. -/
theorem filter_found?_singleton (v : ListedVariable) (key : String) :
    (found? .element [v] key).filter Entry.isInterface =
      if v.causality.isInterface = true ∧ v.name = key then some (Manifest.entryOf v) else none := by
  apply Option.ext
  intro entry
  rw [Option.filter_eq_some_iff, found?_element_singleton, mem_expand, Option.ite_none_right_eq_some]
  constructor
  · rintro ⟨⟨rfl, rfl⟩ | ⟨index, -, rfl, rfl⟩, hi⟩
    · exact ⟨⟨hi, rfl⟩, rfl⟩
    · cases hi
  · rintro ⟨⟨hi, rfl⟩, he⟩
    cases he
    exact ⟨.inl ⟨rfl, rfl⟩, hi⟩

/-- What is at the interface in the table of elements is in the table of the interface. -/
theorem found?_aggregate_of_filter {vs : List ListedVariable}
    (h : (found? .element vs key).filter Entry.isInterface = some entry) :
    found? .aggregate vs key = some entry := by
  induction vs with
  | nil =>
    rw [found?_nil] at h
    cases h
  | cons v rest ih =>
    rw [found?_element_cons] at h
    rw [found?_aggregate_cons]
    cases hrest : found? .element rest key with
    | some found =>
      rw [hrest, Option.some_or, ← hrest] at h
      rw [ih h, Option.some_or]
    | none =>
      rw [hrest, Option.none_or, filter_found?_singleton] at h
      rw [found?_aggregate_eq_none hrest, Option.none_or, h]

/-- The tables agree on a name exactly if nothing enters it behind its last interface variable. -/
theorem found?_aggregate_eq_iff {vs : List ListedVariable} :
    found? .aggregate vs key = (found? .element vs key).filter Entry.isInterface ↔
      ∀ v behind, v :: behind <:+ vs → v.causality.isInterface = true ∧ v.name = key →
        found? .aggregate behind key = none → found? .element behind key = none := by
  induction vs with
  | nil => simp [found?_nil]
  | cons v rest ih =>
    have hsplit {p : ListedVariable → List ListedVariable → Prop} :
        (∀ w behind, w :: behind <:+ v :: rest → p w behind) ↔
          p v rest ∧ ∀ w behind, w :: behind <:+ rest → p w behind := by
      constructor
      · intro h
        exact ⟨h v rest (List.suffix_refl _),
          fun w behind hs => h w behind (hs.trans (List.suffix_cons v rest))⟩
      · rintro ⟨hv, hrest⟩ w behind hs
        rcases List.suffix_cons_iff.1 hs with he | hs
        · cases he
          exact hv
        · exact hrest w behind hs
    rw [hsplit, ← ih, found?_aggregate_cons, found?_element_cons]
    cases ha : found? .aggregate rest key with
    | some found =>
      have he : found? .element rest key ≠ none := fun h => by
        rw [found?_aggregate_eq_none h] at ha
        cases ha
      obtain ⟨other, he⟩ := Option.ne_none_iff_exists'.1 he
      simp [he]
    | none =>
      cases he : found? .element rest key with
      | none => simp [filter_found?_singleton]
      | some other =>
        -- what the later variables enter is not at the interface, so it hides the variable
        have hhidden : (some other).filter Entry.isInterface = none := by
          rw [← he, Option.eq_none_iff_forall_ne_some]
          intro entry hentry
          rw [found?_aggregate_of_filter hentry] at ha
          cases ha
        simp [hhidden]

end Listed

/-- The tables agree on all names exactly if no interface variable loses its name to a later variable. -/
theorem Manifest.keepsInterface_iff (m : Manifest) : m.KeepsInterface ↔ ∀ key,
    found? .aggregate m.listed key = (found? .element m.listed key).filter Entry.isInterface := by
  constructor
  · intro h key
    rw [found?_aggregate_eq_iff]
    rintro v behind hs ⟨hi, rfl⟩ hnone
    rw [found?_aggregate_eq_none_iff] at hnone
    exact found?_element_eq_none_iff.2 (h v behind hs hi hnone)
  · intro h v behind hs hi hnone
    apply found?_element_eq_none_iff.1
    exact found?_aggregate_eq_iff.1 (h v.name) v behind hs ⟨hi, rfl⟩
      (found?_aggregate_eq_none_iff.2 hnone)

/-- Variables that are listed once, under names that are not those of elements, keep their names. -/
theorem Manifest.keepsInterface_of_distinct {m : Manifest}
    (hdistinct : (m.listed.map ListedVariable.name).Nodup)
    (hplain : ∀ v ∈ m.listed, IsPlain v.name) : m.KeepsInterface := by
  rintro v behind hs - - w hw ⟨entry, he⟩
  rcases mem_expand.1 he with ⟨hn, -⟩ | ⟨index, -, hn, -⟩
  · have hnodup := (hs.sublist.map ListedVariable.name).nodup hdistinct
    rw [List.map_cons, List.nodup_cons] at hnodup
    exact hnodup.1 (hn ▸ List.mem_map_of_mem hw)
  · have hv := hplain v (hs.mem List.mem_cons_self)
    rw [hn] at hv
    exact not_isPlain_indexedName w.name index hv

/-- The table of the interface has all entries that the table of elements has of whole variables at the
interface. It has no others exactly if nothing enters the name of an interface variable behind the last
interface variable of that name, as is the case where every variable is listed once and no name ends with
a bracket. -/
theorem Manifest.interface_table_exact (m : Manifest) :
    let interface := (m.table .element).declared.filter fun p => p.2.causality.isInterface
    interface ⊆ (m.table .aggregate).toList ∧
      ((m.table .aggregate).toList = interface ↔ m.KeepsInterface) ∧
      ((m.listed.map ListedVariable.name).Nodup → (∀ v ∈ m.listed, IsPlain v.name) →
        (m.table .aggregate).toList = interface) := by
  intro interface
  have hmem (name : String) (entry : Entry) : (name, entry) ∈ interface ↔
      (found? .element m.listed name).filter Entry.isInterface = some entry := by
    rw [List.mem_filter, VariableTable.declared, List.mem_filter, VariableTable.mem_toList_iff,
      Option.filter_eq_some_iff, Entry.isInterface, Bool.and_eq_true, and_assoc]
    rfl
  have hmem' (name : String) (entry : Entry) : (name, entry) ∈ (m.table .aggregate).toList ↔
      found? .aggregate m.listed name = some entry := VariableTable.mem_toList_iff
  have hsame : (m.table .aggregate).toList = interface ↔ m.KeepsInterface := by
    rw [m.keepsInterface_iff]
    constructor
    · intro h key
      apply Option.ext
      intro entry
      rw [← hmem, ← hmem', h]
    · intro h
      have hordered : interface.Pairwise fun a b => a.1 < b.1 :=
        ((m.table .element).pairwise_toList.filter _).filter _
      apply VariableTable.eq_of_pairwise_of_mem_iff (VariableTable.pairwise_toList _) hordered
      rintro ⟨name, entry⟩
      rw [hmem, hmem', h]
  refine ⟨?_, hsame, fun hdistinct hplain => hsame.2 (keepsInterface_of_distinct hdistinct hplain)⟩
  rintro ⟨name, entry⟩ h
  exact (hmem' name entry).2 (found?_aggregate_of_filter ((hmem name entry).1 h))

/-- An input that is listed again as a state. -/
def relistedManifest : Manifest where
  listed :=
    [{ name := "x", type := .real, causality := .input, dimensions := [], line := 3 },
     { name := "x", type := .real, causality := .state, dimensions := [], line := 4 }]

/-- The input is still in the table of the interface, though the name now means the state. -/
theorem stale_interface_of_relistedManifest :
    (relistedManifest.table .aggregate).toList =
        [("x", { type := .real, causality := .input, line := 3 })] ∧
      (relistedManifest.table .element).declared =
        [("x", { type := .real, causality := .state, line := 4 })] ∧
      (relistedManifest.table .aggregate).toList ≠
        (relistedManifest.table .element).declared.filter fun p => p.2.causality.isInterface := by
  decide +kernel

/-- An input array beside a state. -/
def plainManifest : Manifest where
  listed :=
    [{ name := "u", type := .real, causality := .input, dimensions := [2], line := 3 },
     { name := "x", type := .integer, causality := .state, dimensions := [], line := 4 }]

/-- Where every name is listed once the tables agree, and the interface is the array as a whole. -/
theorem interface_table_plainManifest :
    (plainManifest.listed.map ListedVariable.name).Nodup ∧
      (∀ v ∈ plainManifest.listed, IsPlain v.name) ∧
      (plainManifest.table .aggregate).toList =
        (plainManifest.table .element).declared.filter fun p => p.2.causality.isInterface := by
  have hnodup : (plainManifest.listed.map ListedVariable.name).Nodup := by decide
  have hplain : ∀ v ∈ plainManifest.listed, IsPlain v.name := by decide
  exact ⟨hnodup, hplain, plainManifest.interface_table_exact.2.2 hnodup hplain⟩

end GalecAudit
