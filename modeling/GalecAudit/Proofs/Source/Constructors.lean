import GalecAudit.Proofs.Source.Induction
import GalecAudit.Proofs.Variable.Elements
import GalecAudit.Source.Flatten

/-!
# Assigned array constructors

The elements of an assigned array constructor are bound one by one. Their targets are the elements that
the table of variables lists of an array of the same sizes, under the same names and in the same order.
-/
namespace GalecAudit

section Names

theorem indexText_append {i j : List Nat} (hi : i ≠ []) (hj : j ≠ []) :
    indexText (i ++ j) = indexText i ++ "," ++ indexText j := by
  obtain ⟨b, j, rfl⟩ := List.exists_cons_of_ne_nil hj
  induction i with
  | nil => exact absurd rfl hi
  | cons a i ih =>
    cases i with
    | nil => exact String.intercalate_cons_cons
    | cons c i =>
      have hrest : indexText (c :: i ++ b :: j) = indexText (c :: i) ++ "," ++ indexText (b :: j) :=
        ih (List.cons_ne_nil c i)
      have hfirst (rest : List Nat) :
          indexText (a :: c :: rest) = toString a ++ "," ++ indexText (c :: rest) :=
        String.intercalate_cons_cons
      rw [List.cons_append, List.cons_append, hfirst, hfirst, ← List.cons_append, hrest]
      simp only [String.append_assoc]

theorem elementName_of_isPlain {name : String} (h : IsPlain name) (index : List Nat) :
    Reference.elementName name index = indexedName name index := if_neg h

/-- An element of an element is the element of the array at both positions. -/
theorem elementName_indexedName (name : String) {i j : List Nat} (hi : i ≠ []) (hj : j ≠ []) :
    Reference.elementName (indexedName name i) j = indexedName name (i ++ j) := by
  have hlast : (indexedName name i).toList.getLast? = some ']' :=
    Decidable.not_not.1 (not_isPlain_indexedName name i)
  have hopen : (indexedName name i).toList.dropLast = (name ++ "[" ++ indexText i).toList := by
    rw [indexedName, String.toList_append]
    exact List.dropLast_concat
  rw [Reference.elementName, if_pos hlast, hopen, String.ofList_toList, indexedName,
    indexText_append hi hj]
  simp only [String.append_assoc]

theorem IsPosition.one_le_size {index dimensions : List Nat} (h : IsPosition index dimensions) :
    ∀ size ∈ dimensions, 1 ≤ size := by
  unfold IsPosition at h
  induction h with
  | nil => nofun
  | cons hi _ ih => exact List.forall_mem_cons.2 ⟨Nat.le_trans hi.1 hi.2, ih⟩

/-- Up to the highest rank all positions of an array are listed, as without them there are none. -/
theorem elementKeys_eq_positions (name : String) {dimensions : List Nat} (hne : dimensions ≠ [])
    (hrank : dimensions.length ≤ maxExpandedRank) :
    elementKeys name dimensions =
      (positions dimensions).map fun index => (indexedName name index, index) := by
  unfold elementKeys
  split
  · rfl
  · next hflat =>
    have hnone : positions dimensions = [] := by
      refine List.eq_nil_iff_forall_not_mem.2 fun index hindex => hflat ?_
      exact isExpanded_iff.2 ⟨hne, hrank, (mem_positions_iff.1 hindex).one_le_size⟩
    rw [hnone, List.map_nil]

/-- The elements of a row of a matrix, listed column by column. -/
def rowKeys (name : String) (row columns : Nat) : List (String × List Nat) :=
  (List.range' 1 columns).map fun column => (indexedName name [row, column], [row, column])

theorem elementKeys_vector (name : String) (size : Nat) :
    elementKeys name [size] = (List.range' 1 size).map fun i => (indexedName name [i], [i]) := by
  rw [elementKeys_eq_positions name (List.cons_ne_nil _ _) (Nat.le_of_ble_eq_true rfl)]
  simp [positions, ← List.map_eq_flatMap]

theorem elementKeys_matrix (name : String) (rows columns : Nat) :
    elementKeys name [rows, columns] =
      (List.range' 1 rows).flatMap fun row => rowKeys name row columns := by
  rw [elementKeys_eq_positions name (List.cons_ne_nil _ _) (Nat.le_of_ble_eq_true rfl)]
  simp [positions, rowKeys, List.map_flatMap, ← List.map_eq_flatMap, Function.comp_def]

/-- The keys of a matrix whose positions begin with the number of a row are those of the row. -/
theorem filter_elementKeys_row (name : String) {row rows : Nat} (columns : Nat) (hfirst : 1 ≤ row)
    (hlast : row ≤ rows) :
    (elementKeys name [rows, columns]).filter (fun key => key.2.head? = some row) =
      rowKeys name row columns := by
  have hown : (rowKeys name row columns).filter (fun key => key.2.head? = some row) =
      rowKeys name row columns :=
    List.filter_eq_self.2 fun key hkey => by
      obtain ⟨j, -, rfl⟩ := List.mem_map.1 hkey
      simp
  have hother (rows : List Nat) (h : row ∉ rows) :
      (rows.flatMap fun i => rowKeys name i columns).filter (fun key => key.2.head? = some row) =
        [] := by
    refine List.filter_eq_nil_iff.2 fun key hkey => ?_
    obtain ⟨i, hi, hkey⟩ := List.mem_flatMap.1 hkey
    obtain ⟨j, -, rfl⟩ := List.mem_map.1 hkey
    have hne : i ≠ row := fun heq => h (heq ▸ hi)
    simpa using hne
  have hmem : row ∈ List.range' 1 rows := List.mem_range'_1.2 ⟨hfirst, by omega⟩
  obtain ⟨before, after, hsplit⟩ := List.append_of_mem hmem
  have hnodup : (before ++ row :: after).Nodup := hsplit ▸ List.nodup_range'
  have hnew : row ∉ before ++ after :=
    (List.nodup_cons.1 (List.perm_middle.nodup_iff.1 hnodup)).1
  rw [elementKeys_matrix, hsplit, List.flatMap_append, List.flatMap_cons, List.filter_append,
    List.filter_append, hown, hother before fun h => hnew (List.mem_append_left _ h),
    hother after fun h => hnew (List.mem_append_right _ h), List.nil_append, List.append_nil]

end Names

namespace Source

/-- The bindings among some effects, or the literal at which there are none. -/
def bindingsOf (effects : Except InvalidLiteral (List Effect)) :
    Except InvalidLiteral (List (Reference × Expression × Nat)) :=
  effects.map (List.filterMap Effect.binding?)

/-- Each target bound to what the element in its place is built to, up to the first literal that is
invalid. -/
def bindEach (scope : LoopScope) (targets : List Reference) (elements : List Expr) :
    Except InvalidLiteral (List (Reference × Expression × Nat)) :=
  (targets.zip elements).mapM fun (target, element) =>
    (element.resolve scope).map fun value => (target, value, element.line)

theorem bindEach_append (scope : LoopScope) {targets : List Reference} {elements : List Expr}
    (h : targets.length = elements.length) (targets' : List Reference) (elements' : List Expr) :
    bindEach scope (targets ++ targets') (elements ++ elements') = do
      let first ← bindEach scope targets elements
      let rest ← bindEach scope targets' elements'
      return first ++ rest := by
  simp only [bindEach]
  rw [List.zip_append h, List.mapM_append]

section Elements

variable {scope : LoopScope} {target : Reference} {elements : List Expr}

theorem bindingsOf_append (x y : Except InvalidLiteral (List Effect)) :
    bindingsOf (do let first ← x; let rest ← y; return first ++ rest) = do
      let first ← bindingsOf x
      let rest ← bindingsOf y
      return first ++ rest := by
  cases x with
  | error e => rfl
  | ok first =>
    cases y with
    | error e => rfl
    | ok rest => exact congrArg Except.ok List.filterMap_append

/-- An element that is no constructor is one binding; the warnings about arrays inside it are none. -/
theorem bindingsOf_bindElement (element : Expr) :
    bindingsOf (bindElement scope target element) = bindEach scope [target] [element] := by
  have hissues (ds : List Diagnostic) : (ds.map Effect.issue).filterMap Effect.binding? = [] := by
    rw [List.filterMap_map]
    exact List.filterMap_eq_nil_iff.2 fun _ _ => rfl
  rw [bindEach, List.zip_cons_cons, List.zip_nil_right, List.mapM_cons, List.mapM_nil, bindElement]
  dsimp only
  cases element.resolve scope with
  | error e => rfl
  | ok value =>
    refine congrArg Except.ok ?_
    rw [List.filterMap_append, hissues, List.nil_append]
    rfl

/-- Where each element binds its parts to targets of its own, all of them in a row bind all parts. -/
theorem bindingsOf_effectsByPosition {effects : Nat → Expr → Except InvalidLiteral (List Effect)}
    {targets : Nat → List Reference} {parts : Expr → List Expr}
    (h : ∀ element ∈ elements, ∀ i, (targets i).length = (parts element).length ∧
      bindingsOf (effects i element) = bindEach scope (targets i) (parts element)) :
    bindingsOf (effectsByPosition elements effects) =
      bindEach scope ((List.range' 1 elements.length).flatMap targets) (elements.flatMap parts) := by
  -- the induction is on the elements that remain, so the number of the first of them varies
  have hfrom (n : Nat) :
      bindingsOf (List.flatten <$> (elements.zipIdx n).mapM fun p => effects p.2 p.1) =
        bindEach scope ((List.range' n elements.length).flatMap targets) (elements.flatMap parts) := by
    induction elements generalizing n with
    | nil => rfl
    | cons element rest ih =>
      obtain ⟨hfirst, hrest⟩ := List.forall_mem_cons.1 h
      have hlater := ih hrest (n + 1)
      rw [List.length_cons, List.range'_succ, List.flatMap_cons, List.flatMap_cons,
        bindEach_append scope (hfirst n).1, ← (hfirst n).2, ← hlater, ← bindingsOf_append]
      simp only [List.zipIdx_cons, List.mapM_cons, map_bind, bind_map_left, map_pure,
        List.flatten_cons]
  rw [← hfrom 1, effectsByPosition, bind_pure_comp]

/-- The elements of a constructor without constructors inside it, at any depth. -/
theorem bindingsOf_bindElements_flat (depth : Nat) (hflat : ∀ e ∈ elements, e.elements? = none) :
    bindingsOf (bindElements scope depth target elements) =
      bindEach scope ((List.range' 1 elements.length).map fun i => target.element [i]) elements := by
  have hsame : bindElements scope depth target elements =
      effectsByPosition elements fun i e => bindElement scope (target.element [i]) e := by
    have hmember {f : Nat → Expr → Except InvalidLiteral (List Effect)}
        (hf : ∀ e ∈ elements, ∀ i, f i e = bindElement scope (target.element [i]) e) :
        effectsByPosition elements f =
          effectsByPosition elements fun i e => bindElement scope (target.element [i]) e := by
      unfold effectsByPosition
      rw [mapM_congr fun p hp => hf p.1 (List.fst_mem_of_mem_zipIdx hp) p.2]
    cases depth with
    | zero => exact hmember fun e he i => by simp only [hflat e he]
    | succ depth => exact hmember fun e he i => by simp only [hflat e he]
  have hone : bindingsOf
      (effectsByPosition elements fun i e => bindElement scope (target.element [i]) e) =
      bindEach scope ((List.range' 1 elements.length).flatMap fun i => [target.element [i]])
        (elements.flatMap fun e => [e]) :=
    bindingsOf_effectsByPosition fun e _ i => ⟨rfl, bindingsOf_bindElement e⟩
  rw [hsame, hone, ← List.map_eq_flatMap, List.flatMap_singleton']

/-- The rows of a constructor of constructors. -/
theorem bindingsOf_bindElements_nested (depth : Nat) {rows : List (List Expr)} {columns : Nat}
    (hrows : elements.map Expr.elements? = rows.map some)
    (hflat : ∀ row ∈ rows, row.length = columns ∧ ∀ e ∈ row, e.elements? = none) :
    bindingsOf (bindElements scope (depth + 1) target elements) =
      bindEach scope ((List.range' 1 rows.length).flatMap fun i =>
        (List.range' 1 columns).map fun j => (target.element [i]).element [j]) rows.flatten := by
  have hparts : elements.flatMap (fun e => (e.elements?).getD []) = rows.flatten := by
    have h := congrArg (List.map fun row : Option (List Expr) => row.getD []) hrows
    rw [List.flatMap_def]
    exact congrArg List.flatten (by simpa [Function.comp_def] using h)
  have hlen : elements.length = rows.length := by simpa using congrArg List.length hrows
  have hnested : ∀ e ∈ elements, ∃ row ∈ rows, e.elements? = some row := by
    intro e he
    obtain ⟨row, hrow, hsome⟩ := List.mem_map.1 (hrows ▸ List.mem_map_of_mem he)
    exact ⟨row, hrow, hsome.symm⟩
  have hsplit : bindingsOf (bindElements scope (depth + 1) target elements) =
      bindEach scope ((List.range' 1 elements.length).flatMap fun i =>
        (List.range' 1 columns).map fun j => (target.element [i]).element [j])
        (elements.flatMap fun e => (e.elements?).getD []) := by
    refine bindingsOf_effectsByPosition fun e he i => ?_
    obtain ⟨row, hrow, hsome⟩ := hnested e he
    obtain ⟨rfl, hcells⟩ := hflat row hrow
    simp only [hsome, Option.getD_some]
    exact ⟨by simp, bindingsOf_bindElements_flat depth hcells⟩
  rw [hsplit, hlen, hparts]

/-- The effects of an assigned constructor are one binding for each of the keys, in their order: its target
is the one assigned to under the name of the key, its value what the part in the place of the key is built
to. Where a part has an invalid literal, so has the assignment. -/
structure Splits (scope : LoopScope) (target : Reference) (keys : List (String × List Nat))
    (parts : List Expr) (effects : Except InvalidLiteral (List Effect)) : Prop where
  length_eq : keys.length = parts.length
  bindings : bindingsOf effects =
    bindEach scope (keys.map fun key => { target with name := key.1 }) parts

theorem splits_vector (depth : Nat) (hplain : IsPlain target.name)
    (hflat : ∀ e ∈ elements, e.elements? = none) :
    Splits scope target (elementKeys target.name [elements.length]) elements
      (bindElements scope depth target elements) := by
  constructor
  · rw [elementKeys_vector, List.length_map, List.length_range']
  · rw [bindingsOf_bindElements_flat depth hflat, elementKeys_vector, List.map_map]
    refine congrArg (bindEach scope · elements) (List.map_congr_left fun i _ => ?_)
    rw [Reference.element, elementName_of_isPlain hplain]
    rfl

theorem splits_matrix (depth : Nat) {rows : List (List Expr)} {columns : Nat}
    (hplain : IsPlain target.name) (hrows : elements.map Expr.elements? = rows.map some)
    (hflat : ∀ row ∈ rows, row.length = columns ∧ ∀ e ∈ row, e.elements? = none) :
    Splits scope target (elementKeys target.name [rows.length, columns]) rows.flatten
      (bindElements scope (depth + 1) target elements) := by
  constructor
  · have hlengths : rows.map List.length = List.replicate rows.length columns :=
      List.map_eq_replicate_iff.2 fun row hrow => (hflat row hrow).1
    simp [elementKeys_matrix, rowKeys, List.length_flatMap, hlengths]
  · rw [bindingsOf_bindElements_nested depth hrows hflat, elementKeys_matrix, List.map_flatMap]
    refine congrArg (bindEach scope · rows.flatten) (List.flatMap_congr fun i _ => ?_)
    rw [rowKeys, List.map_map]
    refine List.map_congr_left fun j _ => ?_
    rw [Reference.element, Reference.element, elementName_of_isPlain hplain,
      elementName_indexedName target.name (List.cons_ne_nil _ _) (List.cons_ne_nil _ _)]
    rfl

theorem splits_row (depth : Nat) {name : String} {row rows : Nat}
    (hname : target.name = indexedName name [row]) (hfirst : 1 ≤ row) (hlast : row ≤ rows)
    (hflat : ∀ e ∈ elements, e.elements? = none) :
    Splits scope target
      ((elementKeys name [rows, elements.length]).filter fun key => key.2.head? = some row) elements
      (bindElements scope depth target elements) := by
  have hkeys := filter_elementKeys_row name elements.length hfirst hlast
  constructor
  · rw [hkeys, rowKeys, List.length_map, List.length_range']
  · rw [bindingsOf_bindElements_flat depth hflat, hkeys, rowKeys, List.map_map]
    refine congrArg (bindEach scope · elements) (List.map_congr_left fun j _ => ?_)
    rw [Reference.element, hname,
      elementName_indexedName name (List.cons_ne_nil _ _) (List.cons_ne_nil _ _)]
    rfl

end Elements

/-- The decomposition of constructors and the elements listed of an array agree: on the elements of a
vector, on those of a matrix, and on those of a row of it where the target is a row. -/
theorem bindElements_splits (scope : LoopScope) (target : Reference) (elements : List Expr) :
    (∀ depth : Nat, IsPlain target.name → (∀ e ∈ elements, e.elements? = none) →
      Splits scope target (elementKeys target.name [elements.length]) elements
        (bindElements scope depth target elements)) ∧
    (∀ (depth : Nat) (rows : List (List Expr)) (columns : Nat), IsPlain target.name →
      elements.map Expr.elements? = rows.map some →
      (∀ row ∈ rows, row.length = columns ∧ ∀ e ∈ row, e.elements? = none) →
      Splits scope target (elementKeys target.name [rows.length, columns]) rows.flatten
        (bindElements scope (depth + 1) target elements)) ∧
    (∀ (depth : Nat) (name : String) (row rows : Nat), target.name = indexedName name [row] →
      1 ≤ row → row ≤ rows → (∀ e ∈ elements, e.elements? = none) →
      Splits scope target
        ((elementKeys name [rows, elements.length]).filter fun key => key.2.head? = some row)
        elements (bindElements scope depth target elements)) :=
  ⟨fun depth => splits_vector depth, fun depth _ _ => splits_matrix depth,
    fun depth _ _ _ => splits_row depth⟩

/-- Two rows, the second one in parentheses, make the four elements of a matrix. -/
theorem bindElements_splits_square :
    let target : Reference := ⟨"m", false, 1, []⟩
    let cell (text : String) := Expr.literal .integer text 1
    let rows := [[cell "1", cell "2"], [cell "3", cell "4"]]
    let elements := [.array [cell "1", cell "2"] "" 1, .paren (.array [cell "3", cell "4"] "" 1) 1]
    (IsPlain "m" ∧ elements.map Expr.elements? = rows.map some) ∧
      Splits [] target (elementKeys "m" [2, 2]) rows.flatten (bindElements [] 1 target elements) := by
  intro target cell rows elements
  have hplain : IsPlain "m" := by decide
  have hrows : elements.map Expr.elements? = rows.map some := rfl
  refine ⟨⟨hplain, hrows⟩, (bindElements_splits [] target elements).2.1 0 rows 2 hplain hrows ?_⟩
  simp [rows, cell, Expr.elements?]

end Source
end GalecAudit
