import GalecAudit.Language.Declaration
import GalecAudit.Proofs.Source.Accesses
import GalecAudit.Proofs.Variable.Lookup

/-!
# Names of accesses to fields

The name of an access is that of the field with the subscripts of each segment behind it. Only where no
segment in front of the last one is subscripted is it the name of the field or of one of its elements.
-/
namespace GalecAudit.Source

variable {loops : LoopScope} {segments : List (Segment Expr)} {s t : Segment Expr}

/-- The subscripts of a segment, where all of them are constant. -/
def Segment.index (loops : LoopScope) (s : Segment Expr) : List Int :=
  (values? loops s.subscripts).getD []

theorem Segment.text_eq (loops : LoopScope) (s : Segment Expr) :
    s.text loops = if s.index loops = [] then s.name else indexedName s.name (s.index loops) := by
  unfold text index
  cases values? loops s.subscripts with
  | none => rfl
  | some values => cases values <;> rfl

/-- The names of segments without their subscripts. -/
def fieldName (segments : List (Segment Expr)) : String :=
  ".".intercalate (segments.map Segment.name)

/-- The names of segments with their subscripts. -/
def accessName (loops : LoopScope) (segments : List (Segment Expr)) : String :=
  ".".intercalate (segments.map (Segment.text loops))

theorem fieldName_cons_cons :
    fieldName (s :: t :: segments) = s.name ++ "." ++ fieldName (t :: segments) :=
  String.intercalate_cons_cons

theorem accessName_cons_cons : accessName loops (s :: t :: segments) =
    s.text loops ++ "." ++ accessName loops (t :: segments) :=
  String.intercalate_cons_cons

theorem indexedName_append {α : Type} [ToString α] (front name : String) (index : List α) :
    indexedName (front ++ name) index = front ++ indexedName name index := by
  simp only [indexedName, String.append_assoc]

/-- Where no segment in front of the last one is subscripted, the access has the name of the field with
the subscripts of the last segment behind it. -/
theorem accessName_eq {last : Segment Expr} (hlast : segments.getLast? = some last)
    (hwhole : ∀ s ∈ segments.dropLast, s.index loops = []) :
    accessName loops segments = if last.index loops = [] then fieldName segments
      else indexedName (fieldName segments) (last.index loops) := by
  induction segments with
  | nil => cases hlast
  | cons s rest ih =>
    cases rest with
    | nil =>
      cases hlast
      exact Segment.text_eq loops s
    | cons t rest =>
      rw [List.dropLast_cons_cons, List.forall_mem_cons] at hwhole
      have hs : s.text loops = s.name := by rw [Segment.text_eq, if_pos hwhole.1]
      rw [List.getLast?_cons_cons] at hlast
      rw [accessName_cons_cons, fieldName_cons_cons, hs, ih hlast hwhole.2]
      split
      · rfl
      · rw [indexedName_append]

/-- An access that subscripts a segment in front of the last one does not begin with the name of the
field, as a bracket stands where that has a dot. -/
theorem index_eq_nil_of_accessName {behind : List Char}
    (h : (accessName loops segments).toList = (fieldName segments).toList ++ behind) :
    ∀ s ∈ segments.dropLast, s.index loops = [] := by
  induction segments with
  | nil => exact fun _ hm => by cases hm
  | cons s rest ih =>
    cases rest with
    | nil => exact fun _ hm => by cases hm
    | cons t rest =>
      rw [accessName_cons_cons, fieldName_cons_cons, toList_append_dot, toList_append_dot,
        List.append_assoc, Segment.text_eq] at h
      rw [List.dropLast_cons_cons, List.forall_mem_cons]
      split at h
      · next hs =>
        have htail := List.append_cancel_left h
        rw [List.cons_append, List.cons.injEq] at htail
        exact ⟨hs, ih htail.2⟩
      · rw [toList_indexedName, List.append_assoc, List.append_cancel_left_eq, List.cons_append,
          List.cons_append, List.cons.injEq] at h
        exact absurd h.1 (by decide)

theorem Segment.dropSubscripts_text (hs : BracketFree s.name) (rest : List Char) :
    dropSubscripts 0 ((s.text loops).toList ++ rest) =
      s.name.toList ++ dropSubscripts 0 rest := by
  rw [text_eq]
  split
  · rw [dropSubscripts_append hs.1 hs.2, if_pos rfl]
  · exact dropSubscripts_indexedName hs rest

theorem dropSubscripts_accessName (hfree : ∀ s ∈ segments, BracketFree s.name) (rest : List Char) :
    dropSubscripts 0 ((accessName loops segments).toList ++ rest) =
      (fieldName segments).toList ++ dropSubscripts 0 rest := by
  induction segments with
  | nil => rfl
  | cons s others ih =>
    rw [List.forall_mem_cons] at hfree
    cases others with
    | nil => exact Segment.dropSubscripts_text hfree.1 rest
    | cons t others =>
      rw [accessName_cons_cons, fieldName_cons_cons, toList_append_dot, toList_append_dot,
        List.append_assoc, Segment.dropSubscripts_text hfree.1, List.cons_append, dropSubscripts,
        if_pos rfl, ih hfree.2, List.append_assoc, List.cons_append]
      · decide
      · decide

/-- Without its subscripts an access has the name of the field. -/
theorem baseName_accessName (hfree : ∀ s ∈ segments, BracketFree s.name) :
    baseName (accessName loops segments) = fieldName segments := by
  have h : dropSubscripts 0 ((accessName loops segments).toList ++ []) = _ :=
    dropSubscripts_accessName hfree []
  rw [List.append_nil, dropSubscripts, List.append_nil] at h
  rw [baseName, h, String.ofList_toList]

/-- A segment of an access that names a declaration. Its subscripts are constant and a position in the
declared array, or it has none. -/
structure Segment.Selects (loops : LoopScope) (s : Segment Expr) (d : GalecAudit.Declaration) :
    Prop where
  named : s.name = d.name
  constant : values? loops s.subscripts ≠ none
  within : s.subscripts = [] ∨ ∃ sizes position, d.sizes? = some sizes ∧
    IsPosition position sizes ∧ s.index loops = position.map Int.ofNat

section Selected

variable {loops : LoopScope} {s : Segment Expr} {d : GalecAudit.Declaration}

theorem values?_eq_nil_iff {es : List Expr} : values? loops es = some [] ↔ es = [] := by
  rw [values?_eq_some_iff, List.forall₂_nil_right_iff]

theorem Segment.Selects.index_eq_nil_iff (h : s.Selects loops d) :
    s.index loops = [] ↔ s.subscripts = [] := by
  rw [← @values?_eq_nil_iff loops, index]
  cases hv : values? loops s.subscripts with
  | none => exact absurd hv h.constant
  | some values => rw [Option.getD_some, Option.some_inj]

theorem Segment.Selects.resolve (h : s.Selects loops d) :
    s.resolve loops = .ok (s.text loops, []) := by
  unfold Segment.resolve text
  cases hv : values? loops s.subscripts with
  | none => exact absurd hv h.constant
  | some values => cases values <;> rfl

variable {segments : List (Segment Expr)} {ds : List GalecAudit.Declaration}

theorem exists_selects (h : List.Forall₂ (Segment.Selects loops) segments ds) :
    ∀ s ∈ segments, ∃ d ∈ ds, s.Selects loops d := by
  induction h with
  | nil => exact fun _ hm => by cases hm
  | @cons s d segments ds hs _ ih =>
    refine List.forall_mem_cons.2 ⟨⟨d, List.mem_cons_self, hs⟩, fun t ht => ?_⟩
    obtain ⟨e, he, hselects⟩ := ih t ht
    exact ⟨e, List.mem_cons_of_mem d he, hselects⟩

/-- The reference that an access becomes. -/
def Access.constantReference (loops : LoopScope) (access : Access Expr) : Reference :=
  { name := accessName loops access.segments
    isState := access.isState
    line := access.line
    indexReferences := [] }

/-- An access with constant subscripts becomes a reference, with the subscripts in its name. -/
theorem Access.resolve_of_selects {access : Access Expr}
    (h : List.Forall₂ (Segment.Selects loops) access.segments ds) :
    access.resolve loops = .ok (access.constantReference loops) := by
  let part (s : Segment Expr) : String × List Reference := (s.text loops, [])
  have hsegments : resolveSegments loops access.segments = .ok (access.segments.map part) := by
    have hparts : ∀ s ∈ access.segments, s.resolve loops = .ok (part s) := by
      intro s hs
      obtain ⟨d, -, hd⟩ := exists_selects h s hs
      exact hd.resolve
    rw [resolveSegments_eq_mapM, mapM_congr hparts]
    exact List.mapM_pure
  have hnone : (access.segments.map part).flatMap (·.2) = [] := by
    rw [List.flatMap_eq_nil_iff]
    intro p hp
    obtain ⟨s, -, rfl⟩ := List.mem_map.1 hp
    rfl
  rw [Access.resolve, hsegments]
  show Except.ok (joined access.isState (access.segments.map part) access.line) = _
  rw [joined, hnone, List.map_map]
  rfl

theorem fieldName_of_selects (h : List.Forall₂ (Segment.Selects loops) segments ds) :
    fieldName segments = ".".intercalate (ds.map GalecAudit.Declaration.name) := by
  have hnames : segments.map Segment.name = ds.map GalecAudit.Declaration.name := by
    induction h with
    | nil => rfl
    | cons hs _ ih => rw [List.map_cons, List.map_cons, hs.named, ih]
  rw [fieldName, hnames]

/-- The last segment names the field itself. -/
theorem exists_last_of_selects (h : List.Forall₂ (Segment.Selects loops) segments ds)
    (hlast : ds.getLast? = some d) :
    ∃ last, segments.getLast? = some last ∧ last.Selects loops d := by
  have hreverse := List.forall₂_reverse_iff.2 h
  simp only [List.getLast?_eq_head?_reverse] at hlast ⊢
  generalize segments.reverse = backward at hreverse ⊢
  generalize ds.reverse = declarations at hreverse hlast
  cases hreverse with
  | nil => cases hlast
  | cons hs _ =>
    cases hlast
    exact ⟨_, rfl, hs⟩

/-- No segment in front of the last one has subscripts. -/
def OpensWhole (segments : List (Segment Expr)) : Prop :=
  ∀ s ∈ segments.dropLast, s.subscripts = []

theorem bracketFree_of_selects (h : List.Forall₂ (Segment.Selects loops) segments ds)
    (hfree : ∀ d ∈ ds, BracketFree d.name) : ∀ s ∈ segments, BracketFree s.name := by
  intro s hs
  obtain ⟨d, hd, hselects⟩ := exists_selects h s hs
  rw [hselects.named]
  exact hfree d hd

theorem opensWhole_iff (h : List.Forall₂ (Segment.Selects loops) segments ds) :
    OpensWhole segments ↔ ∀ s ∈ segments.dropLast, s.index loops = [] := by
  unfold OpensWhole
  constructor
  · intro hw s hs
    obtain ⟨d, -, hd⟩ := exists_selects h s ((List.dropLast_sublist _).subset hs)
    exact hd.index_eq_nil_iff.2 (hw s hs)
  · intro hw s hs
    obtain ⟨d, -, hd⟩ := exists_selects h s ((List.dropLast_sublist _).subset hs)
    exact hd.index_eq_nil_iff.1 (hw s hs)

end Selected

end GalecAudit.Source
