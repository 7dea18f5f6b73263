import GalecAudit.Proofs.Variable.Subscript
import GalecAudit.Variable.Entry
import Mathlib.Data.List.Forall2

/-!
# Names of array elements

The positions in an array, the elements that are listed of it, and how far the name of an element
determines its array and its position.
-/
namespace GalecAudit

/-- The name of an element determines its array and its position. -/
theorem indexedName_inj {name other : String} {i j : List Nat} (hi : i ≠ []) (hj : j ≠ [])
    (h : indexedName name i = indexedName other j) : name = other ∧ i = j := by
  obtain ⟨hn, ht⟩ := eq_of_indexedName_eq hi hj h
  exact ⟨hn, (List.map_inj_right fun _ _ => Nat.repr_inj.1).1 ht⟩

theorem indexedName_ne_self {α : Type} [ToString α] (name : String) (index : List α) :
    indexedName name index ≠ name := by
  intro h
  have hl := congrArg (fun s => s.toList.length) h
  simp only [toList_indexedName, List.length_append, List.length_cons] at hl
  omega

/-- A name that is not the name of an array element: it does not end with a bracket. -/
def IsPlain (name : String) : Prop := name.toList.getLast? ≠ some ']'

instance (name : String) : Decidable (IsPlain name) := inferInstanceAs (Decidable (_ ≠ _))

theorem not_isPlain_indexedName {α : Type} [ToString α] (name : String) (index : List α) :
    ¬ IsPlain (indexedName name index) := by
  intro h
  refine h ?_
  rw [indexedName, String.toList_append]
  exact List.getLast?_concat

/-- An index lies in an array of the given sizes. Positions count from one. -/
def IsPosition (index dimensions : List Nat) : Prop :=
  List.Forall₂ (fun i size => 1 ≤ i ∧ i ≤ size) index dimensions

theorem IsPosition.one_le_of_mem {index dimensions : List Nat} (h : IsPosition index dimensions) :
    ∀ i ∈ index, 1 ≤ i := by
  unfold IsPosition at h
  induction h with
  | nil => exact fun _ hm => by cases hm
  | cons hi _ ih => exact List.forall_mem_cons.2 ⟨hi.1, ih⟩

theorem mem_positions_iff {index dimensions : List Nat} :
    index ∈ positions dimensions ↔ IsPosition index dimensions := by
  unfold IsPosition
  induction dimensions generalizing index with
  | nil => simp [positions]
  | cons size rest ih =>
    rw [positions, List.forall₂_cons_right_iff]
    simp only [List.mem_flatMap, List.mem_range'_1, List.mem_map, ih]
    constructor
    · rintro ⟨i, hi, tail, ht, rfl⟩
      exact ⟨i, tail, ⟨hi.1, by omega⟩, ht, rfl⟩
    · rintro ⟨i, tail, hi, ht, rfl⟩
      exact ⟨i, ⟨hi.1, by omega⟩, tail, ht, rfl⟩

/-- The positions of the elements that are listed of an array. -/
def elementPositions (dimensions : List Nat) : List (List Nat) :=
  if isExpanded dimensions then positions dimensions else []

theorem elementKeys_eq_map (name : String) (dimensions : List Nat) :
    elementKeys name dimensions =
      (elementPositions dimensions).map fun index => (indexedName name index, index) := by
  unfold elementKeys elementPositions
  split <;> rfl

theorem isExpanded_iff {dimensions : List Nat} : isExpanded dimensions = true ↔
    dimensions ≠ [] ∧ dimensions.length ≤ maxExpandedRank ∧ ∀ size ∈ dimensions, 1 ≤ size := by
  have hzero : dimensions.contains 0 = false ↔ ∀ size ∈ dimensions, 1 ≤ size := by
    rw [← Bool.not_eq_true, List.contains_iff_mem]
    constructor
    · intro h size hs
      exact Nat.one_le_iff_ne_zero.2 fun hz => h (hz ▸ hs)
    · intro h hm
      have hle := h 0 hm
      omega
  unfold isExpanded
  rw [Bool.and_eq_true, Bool.and_eq_true, Bool.not_eq_true', Bool.not_eq_true', hzero,
    decide_eq_true_iff, List.isEmpty_eq_false_iff, and_assoc]

/-- The rank and the sizes of the arrays that are listed element by element. -/
theorem isExpanded_iff_rank {dimensions : List Nat} : isExpanded dimensions = true ↔
    1 ≤ dimensions.length ∧ dimensions.length ≤ 3 ∧ 0 ∉ dimensions := by
  have hzero : (∀ size ∈ dimensions, 1 ≤ size) ↔ 0 ∉ dimensions := by
    simp only [Nat.one_le_iff_ne_zero, ne_eq]
    exact ⟨fun h hz => h 0 hz rfl, fun h size hs hz => h (hz ▸ hs)⟩
  rw [isExpanded_iff, hzero, ← List.length_pos_iff]
  exact Iff.rfl

theorem mem_elementPositions_iff {index dimensions : List Nat} :
    index ∈ elementPositions dimensions ↔
      isExpanded dimensions = true ∧ IsPosition index dimensions := by
  unfold elementPositions
  split
  · next h => simp [h, mem_positions_iff]
  · next h => simp [h]

theorem ne_nil_of_mem_elementPositions {index dimensions : List Nat}
    (h : index ∈ elementPositions dimensions) : index ≠ [] := by
  obtain ⟨he, hp⟩ := mem_elementPositions_iff.1 h
  rintro rfl
  exact (isExpanded_iff.1 he).1 (List.forall₂_nil_left_iff.1 hp)

/-- The last element of an array has the sizes of the array for its position. -/
theorem mem_elementPositions_self {dimensions : List Nat} (h : isExpanded dimensions = true) :
    dimensions ∈ elementPositions dimensions := by
  refine mem_elementPositions_iff.2 ⟨h, List.forall₂_same.2 fun size hs => ?_⟩
  exact ⟨(isExpanded_iff.1 h).2.2 size hs, Nat.le_refl size⟩

/-- Every listed element of one array is one of the other: nothing is listed of the first array, or it is
as deep as the second one and nowhere longer. -/
def FitsWithin (dimensions others : List Nat) : Prop :=
  isExpanded dimensions = true → List.Forall₂ (· ≤ ·) dimensions others

instance (dimensions others : List Nat) : Decidable (FitsWithin dimensions others) :=
  inferInstanceAs (Decidable (_ → List.Forall₂ (· ≤ ·) _ _))

theorem isExpanded_of_forall₂_le {dimensions others : List Nat} (h : isExpanded dimensions = true)
    (hle : List.Forall₂ (· ≤ ·) dimensions others) : isExpanded others = true := by
  obtain ⟨hne, hrank, hpos⟩ := isExpanded_iff.1 h
  refine isExpanded_iff.2 ⟨?_, hle.length_eq ▸ hrank, ?_⟩
  · rintro rfl
    exact hne (List.forall₂_nil_right_iff.1 hle)
  · clear h hne hrank
    induction hle with
    | nil => exact fun _ hm => by cases hm
    | cons hxy _ ih =>
      rw [List.forall_mem_cons] at hpos
      rw [List.forall_mem_cons]
      exact ⟨Nat.le_trans hpos.1 hxy, ih hpos.2⟩

theorem IsPosition.mono {index dimensions others : List Nat} (h : IsPosition index dimensions)
    (hle : List.Forall₂ (· ≤ ·) dimensions others) : IsPosition index others := by
  unfold IsPosition at *
  induction h generalizing others with
  | nil =>
    rw [List.forall₂_nil_left_iff.1 hle]
    exact .nil
  | cons hi _ ih =>
    obtain ⟨size, rest, hsize, hrest, rfl⟩ := List.forall₂_cons_left_iff.1 hle
    exact .cons ⟨hi.1, Nat.le_trans hi.2 hsize⟩ (ih hrest)

theorem elementPositions_subset_iff {dimensions others : List Nat} :
    (∀ index ∈ elementPositions dimensions, index ∈ elementPositions others) ↔
      FitsWithin dimensions others := by
  constructor
  · intro h he
    obtain ⟨-, hp⟩ := mem_elementPositions_iff.1 (h dimensions (mem_elementPositions_self he))
    exact hp.imp fun _ _ hi => hi.2
  · intro h index hm
    obtain ⟨he, hp⟩ := mem_elementPositions_iff.1 hm
    have hle := h he
    exact mem_elementPositions_iff.2 ⟨isExpanded_of_forall₂_le he hle, hp.mono hle⟩

/-- Two arrays fit within each other if they have the same sizes, or if nothing is listed of either. -/
theorem fitsWithin_and_fitsWithin_iff {dimensions others : List Nat} :
    FitsWithin dimensions others ∧ FitsWithin others dimensions ↔
      dimensions = others ∨ isExpanded dimensions = false ∧ isExpanded others = false := by
  have hantisymm : ∀ {a b : List Nat}, List.Forall₂ (· ≤ ·) a b → List.Forall₂ (· ≤ ·) b a →
      a = b := by
    intro a b hab
    induction hab with
    | nil => exact fun _ => rfl
    | cons hxy _ ih =>
      intro hba
      obtain ⟨hyx, hrest⟩ := List.forall₂_cons.1 hba
      rw [Nat.le_antisymm hxy hyx, ih hrest]
  constructor
  · rintro ⟨h, h'⟩
    by_cases hd : isExpanded dimensions = true
    · exact .inl (hantisymm (h hd) (h' (isExpanded_of_forall₂_le hd (h hd))))
    · by_cases ho : isExpanded others = true
      · exact .inl (hantisymm (h (isExpanded_of_forall₂_le ho (h' ho))) (h' ho))
      · exact .inr ⟨Bool.eq_false_iff.2 hd, Bool.eq_false_iff.2 ho⟩
  · rintro (rfl | ⟨hd, ho⟩)
    · exact ⟨fun _ => List.forall₂_refl _, fun _ => List.forall₂_refl _⟩
    · refine ⟨fun he => ?_, fun he => ?_⟩
      · rw [hd] at he
        cases he
      · rw [ho] at he
        cases he

end GalecAudit
