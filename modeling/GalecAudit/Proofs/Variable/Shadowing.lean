import GalecAudit.Proofs.Variable.Expansion
import GalecAudit.Proofs.Variable.Lookup

/-!
# Shadowing of array elements

What the name of an array element means in a scope. An element that some table lists is found before any
array as a whole, even behind the first table that declares the array.
-/
namespace GalecAudit

/-- The variables of one table of a scope. Their names are distinct and have no brackets. -/
structure Layer where
  entries : List (String × Entry)
  distinct : (entries.map Prod.fst).Nodup
  bracketFree : ∀ v ∈ entries, '[' ∉ v.1.toList ∧ ']' ∉ v.1.toList

namespace Layer

variable {layer : Layer} {name : String} {index : List Int} {entry : Entry}

/-- The table in which the variables are declared one after another. -/
def table (layer : Layer) : VariableTable :=
  layer.entries.foldl (fun table v => table.declare .element v.1 v.2) .empty

def entry? (layer : Layer) (name : String) : Option Entry := layer.entries.lookup name

/-- The element of a variable at some subscripts, where it is listed: the variable is an array of rank
one to three without an empty dimension, and each subscript lies between one and the size. -/
def element? (layer : Layer) (name : String) (index : List Int) : Option Entry :=
  (layer.entry? name).bind fun entry =>
    if index.map Int.toNat ∈ elementPositions entry.dimensions then
      some (entry.atIndex (index.map Int.toNat))
    else none

/-- The variable as a whole, where it stands for all its elements. -/
def unlisted? (layer : Layer) (name : String) : Option Entry :=
  (layer.entry? name).filter fun entry => !isExpanded entry.dimensions

theorem entry?_eq_some_iff : layer.entry? name = some entry ↔ (name, entry) ∈ layer.entries := by
  constructor
  · intro h
    obtain ⟨before, behind, hsplit, -⟩ := List.lookup_eq_some_iff.1 h
    rw [hsplit]
    exact List.mem_append_right _ List.mem_cons_self
  · intro hm
    cases h : layer.entry? name with
    | none =>
      have hne := List.lookup_eq_none_iff.1 h _ hm
      rw [bne_self_eq_false] at hne
      cases hne
    | some other =>
      obtain ⟨before, behind, hsplit, -⟩ := List.lookup_eq_some_iff.1 h
      have ho : (name, other) ∈ layer.entries := by
        rw [hsplit]
        exact List.mem_append_right _ List.mem_cons_self
      rw [entry_unique layer.distinct ho hm]

theorem isPlain_of_mem (h : (name, entry) ∈ layer.entries) : IsPlain name :=
  fun hl => (layer.bracketFree _ h).2 (List.mem_of_getLast? hl)

theorem table_eq_ofVariables (layer : Layer) :
    layer.table = VariableTable.ofVariables layer.entries :=
  VariableTable.foldl_declare layer.entries .empty

/-- A table knows a name without brackets exactly if the layer declares it. -/
theorem get?_table (hn : IsPlain name) : layer.table.get? name = layer.entry? name := by
  refine Option.ext fun entry => ?_
  rw [table_eq_ofVariables, get?_ofVariables layer.distinct hn, entry?_eq_some_iff]

/-- Subscripts at which an element is listed are natural numbers. -/
theorem map_ofNat_map_toNat {dimensions : List Nat}
    (h : index.map Int.toNat ∈ elementPositions dimensions) :
    (index.map Int.toNat).map Int.ofNat = index := by
  obtain ⟨-, hp⟩ := mem_elementPositions_iff.1 h
  rw [List.map_map]
  refine (List.map_congr_left fun i hi => ?_).trans (List.map_id index)
  have h1 := hp.one_le_of_mem _ (List.mem_map_of_mem hi)
  rw [Function.comp_apply, id, Int.ofNat_eq_natCast]
  omega

theorem mem_expand_indexedName_iff (hi : index ≠ []) :
    (indexedName name index, entry) ∈ layer.entries.flatMap expand ↔
      layer.element? name index = some entry := by
  rw [mem_expand_iff, element?]
  constructor
  · rintro (hm | ⟨other, owner, hm, position, hpos, hk, rfl⟩)
    · exact absurd (isPlain_of_mem hm) (not_isPlain_indexedName name index)
    · obtain ⟨rfl, ht⟩ := eq_of_indexedName_eq hi (ne_nil_of_mem_elementPositions hpos) hk
      have hp : index.map Int.toNat = position := by
        rw [map_ofNat_of_map_toString_eq ht, List.map_map]
        exact List.map_id position
      rw [entry?_eq_some_iff.2 hm, Option.bind_some, hp, if_pos hpos]
  · intro h
    obtain ⟨owner, ho, he⟩ := Option.bind_eq_some_iff.1 h
    split at he
    · next hpos =>
      cases he
      refine .inr ⟨name, owner, entry?_eq_some_iff.1 ho, index.map Int.toNat, hpos, ?_, rfl⟩
      rw [← indexedName_map_ofNat, map_ofNat_map_toNat hpos]
    · cases he

/-- A table knows the name of an element exactly if the layer lists the element. -/
theorem get?_table_indexedName (hi : index ≠ []) :
    layer.table.get? (indexedName name index) = layer.element? name index := by
  refine Option.ext fun entry => ?_
  rw [table_eq_ofVariables, VariableTable.ofVariables, VariableTable.get?_empty_insertMany_iff,
    mem_expand_indexedName_iff hi]
  intro first second h h'
  rw [mem_expand_indexedName_iff hi] at h h'
  exact Option.some.inj (h.symm.trans h')

end Layer

/-- A scope of tables in which variables have been declared. -/
def Scope.ofLayers (layers : List Layer) : Scope := ⟨layers.map Layer.table⟩

section Names

variable {name : String} {index : List Int}

theorem Scope.find?_ofLayers (layers : List Layer) (key : String) :
    (ofLayers layers).find? key = layers.findSome? fun l => l.table.get? key := by
  rw [ofLayers, find?, List.findSome?_map]
  rfl

theorem Layer.element?_eq_none {layer : Layer} (h : layer.entry? name = none) :
    layer.element? name index = none := by
  rw [element?, h, Option.bind_none]

/-- An element is looked for in every table, its array only in the first table that declares it. -/
theorem Scope.lookup_ofLayers (nearer : List Layer) (first : Layer) (deeper : List Layer)
    (hx : Grammar.IsIdentifier name) (hi : index ≠ [])
    (hnearer : ∀ l ∈ nearer, l.entry? name = none) (hfirst : first.entry? name ≠ none) :
    (ofLayers (nearer ++ first :: deeper)).lookup (indexedName name index) =
      (first.element? name index).or
        ((deeper.findSome? fun l => l.element? name index).or (first.unlisted? name)) := by
  have hname := IsUnindexed.of_isIdentifier hx
  have hnone (f : Layer → Option Entry) (hf : ∀ l ∈ nearer, f l = none) :
      (nearer ++ first :: deeper).findSome? f = (f first).or (deeper.findSome? f) := by
    rw [List.findSome?_append, List.findSome?_eq_none_iff.2 hf, Option.none_or,
      List.findSome?_cons]
    cases f first <;> rfl
  obtain ⟨entry, he⟩ := Option.ne_none_iff_exists'.1 hfirst
  rw [lookup_indexedName _ hname, find?_ofLayers, find?_ofLayers]
  simp only [Layer.get?_table hname.isPlain, Layer.get?_table_indexedName hi]
  rw [hnone _ hnearer, hnone _ fun l hl => Layer.element?_eq_none (hnearer l hl), he,
    Option.or_assoc, Layer.unlisted?, he]
  rfl

/-- What an element of an array means in a scope whose first table that declares the array is known. Where
that table lists the element, or no deeper one does, the element means what it means in that table
alone. Else the element that a deeper table lists of its own array of the same name comes first. -/
theorem Scope.lookup_element (nearer : List Layer) (first : Layer) (deeper : List Layer)
    (hx : Grammar.IsIdentifier name) (hi : index ≠ [])
    (hnearer : ∀ l ∈ nearer, l.entry? name = none) (hfirst : first.entry? name ≠ none) :
    (ofLayers [first]).lookup (indexedName name index) =
        (first.element? name index).or (first.unlisted? name) ∧
      (ofLayers (nearer ++ first :: deeper)).lookup (indexedName name index) =
        (first.element? name index).or
          ((deeper.findSome? fun l => l.element? name index).or (first.unlisted? name)) ∧
      (first.element? name index ≠ none ∨ (∀ l ∈ deeper, l.element? name index = none) →
        (ofLayers (nearer ++ first :: deeper)).lookup (indexedName name index) =
          (ofLayers [first]).lookup (indexedName name index)) := by
  have halone := lookup_ofLayers [] first [] hx hi (by simp) hfirst
  have hscope := lookup_ofLayers nearer first deeper hx hi hnearer hfirst
  rw [List.nil_append, List.findSome?_nil, Option.none_or] at halone
  refine ⟨halone, hscope, ?_⟩
  rintro (hlisted | hdeeper)
  · obtain ⟨entry, he⟩ := Option.ne_none_iff_exists'.1 hlisted
    rw [hscope, halone, he]
    rfl
  · rw [hscope, halone, List.findSome?_eq_none_iff.2 hdeeper, Option.none_or]

end Names

/-- Two real numbers `x`, and behind them three integers of the same name. -/
def pairLayer : Layer where
  entries := [("x", { type := .real, causality := .routineLocal, line := 5, dimensions := [2] })]
  distinct := by decide
  bracketFree := by decide

def tripleLayer : Layer where
  entries := [("x", { type := .integer, causality := .state, line := 3, dimensions := [3] })]
  distinct := by decide
  bracketFree := by decide

/-- The nearer array ends at its second element, but the third one is found in the deeper array. -/
theorem Scope.lookup_shadowed_element :
    (ofLayers [pairLayer, tripleLayer]).lookup (indexedName "x" [(3 : Int)]) =
        some { type := .integer, causality := .state, line := 3, elementIndex := some [3] } ∧
      (ofLayers [pairLayer]).lookup (indexedName "x" [(3 : Int)]) = none := by
  decide +kernel

/-- The second element is listed in the nearer array and means what it means there. -/
theorem Scope.lookup_element_pairLayer :
    pairLayer.element? "x" [2] ≠ none ∧
      (ofLayers [pairLayer, tripleLayer]).lookup (indexedName "x" [(2 : Int)]) =
        (ofLayers [pairLayer]).lookup (indexedName "x" [(2 : Int)]) := by
  have hlisted : pairLayer.element? "x" [2] ≠ none := by decide +kernel
  exact ⟨hlisted, (lookup_element [] pairLayer [tripleLayer] (by decide) (by decide) (by simp)
    (by decide +kernel)).2.2 (.inl hlisted)⟩

end GalecAudit
