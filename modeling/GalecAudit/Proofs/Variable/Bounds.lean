import GalecAudit.Proofs.Variable.Shadowing

/-!
# Bounds of subscripts

An element of an array is known to a table exactly if its subscripts are as many as the array has
dimensions and lie within their sizes. Arrays that are not listed element by element stand for all their
elements. Names are all that is compared: the bounds hold because names of elements tell their arrays and
positions apart.
-/
namespace GalecAudit

/-- Identifiers joined by dots: the name of a variable or of a field below it. -/
inductive IsPath : String → Prop
  | identifier {x : String} : Grammar.IsIdentifier x → IsPath x
  | field {path x : String} : IsPath path → Grammar.IsIdentifier x → IsPath (path ++ "." ++ x)

theorem IsPath.isUnindexed {name : String} (h : IsPath name) : IsUnindexed name := by
  induction h with
  | identifier hx => exact .of_isIdentifier hx
  | @field path x _ hx ih =>
    have hlist := toList_append_dot path x
    have hfield := IsUnindexed.of_isIdentifier hx
    constructor
    · rw [hlist]
      exact Grammar.Starts.append ih.first _
    · rw [hlist, List.mem_append, List.mem_cons]
      rintro (hm | hm | hm)
      · exact ih.opening hm
      · cases hm
      · exact hfield.opening hm
    · rw [hlist, List.mem_append, List.mem_cons]
      rintro (hm | hm | hm)
      · exact ih.closing hm
      · cases hm
      · exact hfield.closing hm

/-- Variables and fields with distinct names, as one table of a scope. -/
def Layer.ofPaths (vs : List (String × Entry)) (distinct : (vs.map Prod.fst).Nodup)
    (paths : ∀ v ∈ vs, IsPath v.1) : Layer where
  entries := vs
  distinct := distinct
  bracketFree v hv := ⟨(paths v hv).isUnindexed.opening, (paths v hv).isUnindexed.closing⟩

/-- Every name in a table of variables and fields begins with a letter. -/
theorem Layer.get?_table_eq_none {layer : Layer} (hp : ∀ v ∈ layer.entries, IsPath v.1)
    {key : String} (hk : ¬ key.toList.head?.any Char.isAlpha = true) :
    layer.table.get? key = none := by
  refine Option.eq_none_iff_forall_ne_some.2 fun entry he => hk ?_
  have hc := VariableTable.contains_iff.2 ⟨entry, he⟩
  rw [layer.table_eq_ofVariables, contains_ofVariables] at hc
  obtain ⟨other, hother⟩ := hc
  rcases mem_expand_iff.1 hother with hm | ⟨name, owner, hm, index, -, rfl, -⟩
  · exact (hp _ hm).isUnindexed.first
  · rw [← indexedName_map_ofNat]
    exact head?_indexedName (hp (name, owner) hm).isUnindexed _

section Elements

variable {layer : Layer} {name : String} {index : List Int} {entry found : Entry}

/-- The listed elements are those whose subscripts are a position in the array. -/
theorem Layer.element?_eq_some_iff (hx : layer.entry? name = some entry)
    (he : isExpanded entry.dimensions = true) :
    layer.element? name index = some found ↔ ∃ position : List Nat,
      index = position.map Int.ofNat ∧ IsPosition position entry.dimensions ∧
        found = entry.atIndex position := by
  rw [element?, hx, Option.bind_some]
  constructor
  · intro h
    split at h
    · next hpos =>
      cases h
      exact ⟨index.map Int.toNat, (map_ofNat_map_toNat hpos).symm,
        (mem_elementPositions_iff.1 hpos).2, rfl⟩
    · cases h
  · rintro ⟨position, rfl, hpos, rfl⟩
    have hback : (position.map Int.ofNat).map Int.toNat = position := by
      rw [List.map_map]
      exact List.map_id position
    rw [hback, if_pos (mem_elementPositions_iff.2 ⟨he, hpos⟩)]

theorem Layer.element?_eq_none_of_not_isExpanded (hx : layer.entry? name = some entry)
    (he : ¬ isExpanded entry.dimensions = true) : layer.element? name index = none := by
  rw [element?, hx, Option.bind_some, if_neg fun hpos => he (mem_elementPositions_iff.1 hpos).1]

end Elements

/-- Subscripts are checked exactly. In a table of variables and fields with distinct names, an array of
rank one to three without an empty dimension has the elements whose subscripts are as many as its sizes
and lie between one and the size, and no others; anything else that is subscripted means itself. The
previous value of an element means what the element means. -/
theorem Scope.lookup_subscripts {vs : List (String × Entry)} (hdistinct : (vs.map Prod.fst).Nodup)
    (hpaths : ∀ v ∈ vs, IsPath v.1) {name : String} {entry : Entry} (hdeclared : (name, entry) ∈ vs)
    {index : List Int} (hindex : index ≠ []) :
    let scope : Scope := ⟨[vs.foldl (fun table v => table.declare .element v.1 v.2) .empty]⟩
    let rank := entry.dimensions.length
    (1 ≤ rank ∧ rank ≤ 3 ∧ 0 ∉ entry.dimensions →
      ∀ found, scope.lookup (indexedName name index) = some found ↔
        ∃ position : List Nat, index = position.map Int.ofNat ∧
          IsPosition position entry.dimensions ∧ found = entry.atIndex position) ∧
    (rank = 0 ∨ 3 < rank ∨ 0 ∈ entry.dimensions →
      scope.lookup (indexedName name index) = some entry) ∧
    scope.lookup (previousName (indexedName name index)) =
      scope.lookup (indexedName name index) := by
  intro scope rank
  let layer := Layer.ofPaths vs hdistinct hpaths
  have hname : IsUnindexed name := (hpaths _ hdeclared).isUnindexed
  have hx : layer.entry? name = some entry := Layer.entry?_eq_some_iff.2 hdeclared
  have hfind (key : String) : scope.find? key = layer.table.get? key := List.findSome?_singleton
  have hlookup : scope.lookup (indexedName name index) =
      (layer.element? name index).or
        ((some entry).filter fun entry => !isExpanded entry.dimensions) := by
    rw [lookup_indexedName scope hname, hfind, hfind, Layer.get?_table_indexedName hindex,
      Layer.get?_table hname.isPlain, hx]
  refine ⟨fun hrank found => ?_, fun hrank => ?_, ?_⟩
  · have he : isExpanded entry.dimensions = true := by
      refine isExpanded_iff.2 ⟨List.ne_nil_of_length_pos hrank.1, hrank.2.1, fun size hs => ?_⟩
      exact Nat.one_le_iff_ne_zero.2 fun hz => hrank.2.2 (hz ▸ hs)
    have hwhole : ((some entry).filter fun entry => !isExpanded entry.dimensions) = none := by
      rw [Option.filter_some, he]
      rfl
    rw [hlookup, hwhole, Option.or_none, Layer.element?_eq_some_iff hx he]
  · have he : ¬ isExpanded entry.dimensions = true := by
      intro he
      obtain ⟨hne, hle, hpos⟩ := isExpanded_iff.1 he
      rcases hrank with hr | hr | hr
      · exact hne (List.eq_nil_of_length_eq_zero hr)
      · exact absurd hle (Nat.not_le.2 hr)
      · exact absurd (hpos 0 hr) (by decide)
    rw [hlookup, Layer.element?_eq_none_of_not_isExpanded hx he]
    simp [he]
  · refine lookup_previousName scope hname fun other => ?_
    rw [hfind]
    refine Layer.get?_table_eq_none hpaths fun hletter => ?_
    exact previousName_ne hletter rfl

/-- A matrix that is a field, beside an array with an empty dimension. -/
def fieldVariables : List (String × Entry) :=
  [("plant.gain", { type := .real, causality := .state, line := 3, dimensions := [2, 3] }),
   ("plant", { type := .integer, causality := .input, line := 4, dimensions := [2, 0] })]

/-- The previous value of the last element of the matrix, and of one behind it. -/
theorem Scope.lookup_subscripts_fieldVariables :
    let scope : Scope :=
      ⟨[fieldVariables.foldl (fun table v => table.declare .element v.1 v.2) .empty]⟩
    (fieldVariables.map Prod.fst).Nodup ∧ (∀ v ∈ fieldVariables, IsPath v.1) ∧
      scope.lookup (previousName (indexedName "plant.gain" [(2 : Int), 3])) =
        some { type := .real, causality := .state, line := 3, elementIndex := some [2, 3] } ∧
      scope.lookup (previousName (indexedName "plant.gain" [(3 : Int), 2])) = none := by
  intro scope
  have hdistinct : (fieldVariables.map Prod.fst).Nodup := by decide
  have hfield : IsPath "plant.gain" :=
    (by decide : "plant" ++ "." ++ "gain" = "plant.gain") ▸
      .field (.identifier (by decide)) (by decide)
  have hpaths : ∀ v ∈ fieldVariables, IsPath v.1 :=
    List.forall_mem_cons.2 ⟨hfield, List.forall_mem_singleton.2 (.identifier (by decide))⟩
  obtain ⟨hlast, -, hlastPrevious⟩ := lookup_subscripts hdistinct hpaths List.mem_cons_self
    (by decide : [(2 : Int), 3] ≠ [])
  obtain ⟨hbehind, -, hbehindPrevious⟩ := lookup_subscripts hdistinct hpaths List.mem_cons_self
    (by decide : [(3 : Int), 2] ≠ [])
  refine ⟨hdistinct, hpaths, hlastPrevious.trans ?_, hbehindPrevious.trans ?_⟩
  · exact (hlast (by decide) _).2
      ⟨[2, 3], rfl, .cons (by decide) (.cons (by decide) .nil), rfl⟩
  · refine Option.eq_none_iff_forall_ne_some.2 fun found hfound => ?_
    obtain ⟨position, hindex, hposition, -⟩ := (hbehind (by decide) found).1 hfound
    obtain ⟨i, rest, hi, -, rfl⟩ := List.forall₂_cons_right_iff.1 hposition
    simp at hindex
    omega

end GalecAudit
