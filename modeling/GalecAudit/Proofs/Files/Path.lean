import GalecAudit.Files.Path

/-!
# Routes of paths

What a path denotes without a look at files: whether it starts at the root, and the names on the way. Dots
and empty names lead nowhere, so paths that differ in these alone have one route. A relative path goes on
where the path that it is joined to ends.
-/
namespace GalecAudit.Path

structure Route where
  isAbsolute : Bool
  names : List (List Char)
deriving DecidableEq, Repr

/-- The names of a path that lead somewhere. -/
def names (path : List Char) : List (List Char) := (segments path).filter fun name => !isIdle name

def route (path : List Char) : Route := ⟨isAbsolute path, names path⟩

variable {base path : List Char}

theorem toList_join (base path : String) :
    (join base path).toList = joinChars base.toList path.toList := String.toList_ofList

theorem isAbsolute_iff : isAbsolute path = true ↔ ∃ rest, path = '/' :: rest := by
  unfold isAbsolute
  rw [List.isPrefixOf_iff_prefix]
  exact ⟨fun ⟨rest, h⟩ => ⟨rest, h.symm⟩, fun ⟨rest, h⟩ => ⟨rest, h.symm⟩⟩

theorem isAbsolute_append (h : base ≠ []) : isAbsolute (base ++ path) = isAbsolute base := by
  cases base with
  | nil => exact absurd rfl h
  | cons c base => simp [isAbsolute, List.isPrefixOf]

theorem joinChars_of_isAbsolute (h : isAbsolute path = true) : joinChars base path = path := if_pos h

theorem segments_ne_nil (path : List Char) : segments path ≠ [] := by
  cases path with
  | nil => exact List.cons_ne_nil _ _
  | cons c path =>
    rw [segments]
    split
    · exact List.cons_ne_nil _ _
    · split <;> exact List.cons_ne_nil _ _

/-- A slash ends the names before it. -/
theorem segments_append_slash (base path : List Char) :
    segments (base ++ '/' :: path) = segments base ++ segments path := by
  induction base with
  | nil => rfl
  | cons c base ih =>
    rw [List.cons_append, segments, segments, ih]
    by_cases hc : c = '/'
    · rw [if_pos hc, if_pos hc]
      rfl
    · rw [if_neg hc, if_neg hc]
      obtain ⟨first, others, hs⟩ := List.exists_cons_of_ne_nil (segments_ne_nil base)
      rw [hs]
      rfl

theorem names_append_slash (base path : List Char) :
    names (base ++ '/' :: path) = names base ++ names path := by
  rw [names, segments_append_slash, List.filter_append]
  rfl

/-- A dot in front of a slash adds no name. -/
theorem names_current (path : List Char) : names ('.' :: '/' :: path) = names path :=
  names_append_slash ['.'] path

/-- A relative path goes on where the other path ends. -/
theorem route_joinChars (h : isAbsolute path = false) :
    route (joinChars base path) = ⟨isAbsolute base, names base ++ names path⟩ := by
  have habsolute : ¬ isAbsolute path = true := by rw [h]; decide
  unfold joinChars
  rw [if_neg habsolute]
  rcases List.eq_nil_or_concat base with rfl | ⟨front, last, rfl⟩
  · exact congrArg (Route.mk · (names path)) h
  rw [List.concat_eq_append]
  have hne : front ++ [last] ≠ [] := List.append_ne_nil_of_right_ne_nil _ (List.cons_ne_nil _ _)
  by_cases hlast : last = '/'
  · -- the path that is joined to already ends in the slash
    subst hlast
    have hnames : names (front ++ ['/']) = names front := by
      rw [names_append_slash]
      exact List.append_nil _
    rw [if_pos (by simp), route, isAbsolute_append hne, hnames, List.append_assoc]
    exact congrArg _ (names_append_slash front path)
  · rw [if_neg (by simp [hlast]), route, isAbsolute_append hne, names_append_slash]

end GalecAudit.Path
