import GalecAudit.Proofs.Source.Induction
import GalecAudit.Source.Flatten

/-!
# Recording of effects

A routine in flat form is what its statements record in it, one after another. Two results with the same
error, or with the same effects up to issues, record the same.
-/
namespace GalecAudit.Source

/-- Records one effect in a routine. A binding gets the number of bindings before it; an issue is kept
elsewhere. -/
def Effect.record (routine : GalecAudit.Routine) : Effect → GalecAudit.Routine
  | .issue _ => routine
  | .bind target value line =>
    { routine with
      bindings := routine.bindings ++ [⟨routine.bindings.length, target, value, line⟩] }
  | .condition c => { routine with conditions := routine.conditions ++ [c] }
  | .call s => { routine with calls := routine.calls ++ [s] }
  | .limit l => { routine with limits := routine.limits ++ [l] }
  | .raise r => { routine with raised := routine.raised ++ [r] }

/-- Builds a statement onto a routine, or fails at a literal. -/
def Statement.build (scope : LoopScope) (s : Statement) (routine : GalecAudit.Routine) :
    Except InvalidLiteral GalecAudit.Routine := do
  let effects ← s.effects scope
  return effects.foldl Effect.record routine

/-- A routine before its first statement. -/
def Routine.opening (records : List RecordType) (r : Routine) : GalecAudit.Routine :=
  let declarations := r.parameters.map (fun (causality, d) => d.flatten causality) ++
    r.locals.map fun d => d.flatten .routineLocal
  { name := r.name
    kind := r.kind
    line := r.line
    signals := r.signals
    locals := (declareEach records {} declarations).1
    bindings := []
    conditions := []
    calls := []
    limits := []
    raised := [] }

/-- Bindings numbered in order from the given number. -/
def numberedFrom (n : Nat) (bindings : List (Reference × Expression × Nat)) : List Binding :=
  (bindings.zipIdx n).map fun ((target, value, line), id) => { id, target, value, line }

theorem numberedFrom_cons (n : Nat) (target : Reference) (value : Expression) (line : Nat)
    (rest : List (Reference × Expression × Nat)) :
    numberedFrom n ((target, value, line) :: rest) =
      ⟨n, target, value, line⟩ :: numberedFrom (n + 1) rest := rfl

/-- What a row of effects adds to each of the lists of a routine. -/
theorem foldl_record (effects : List Effect) (routine : GalecAudit.Routine) :
    effects.foldl Effect.record routine =
      { routine with
        bindings := routine.bindings ++
          numberedFrom routine.bindings.length (effects.filterMap Effect.binding?)
        conditions := routine.conditions ++ effects.filterMap Effect.condition?
        calls := routine.calls ++ effects.filterMap Effect.call?
        limits := routine.limits ++ effects.filterMap Effect.limit?
        raised := routine.raised ++ effects.filterMap Effect.raise? } := by
  induction effects generalizing routine with
  | nil =>
    simp only [List.foldl_nil, List.filterMap_nil, List.append_nil]
    rw [show numberedFrom routine.bindings.length [] = [] from rfl, List.append_nil]
  | cons effect rest ih =>
    rw [List.foldl_cons, ih]
    cases effect <;>
      simp [List.filterMap_cons, Effect.record, Effect.binding?, Effect.condition?, Effect.call?,
        Effect.limit?, Effect.raise?, numberedFrom_cons]

/-- The rows of effects of several steps are recorded one after another. -/
theorem foldlM_record {α : Type} (f : α → Except InvalidLiteral (List Effect)) (l : List α)
    (routine : GalecAudit.Routine) :
    (List.flatten <$> l.mapM f).map (fun effects => effects.foldl Effect.record routine) =
      l.foldlM (fun routine a => (f a).map fun effects => effects.foldl Effect.record routine)
        routine := by
  induction l generalizing routine with
  | nil => rfl
  | cons a rest ih =>
    rw [List.mapM_cons, List.foldlM_cons]
    cases f a with
    | error e => rfl
    | ok first =>
      have hr := ih (first.foldl Effect.record routine)
      change _ = rest.foldlM _ (first.foldl Effect.record routine)
      rw [← hr]
      cases rest.mapM f with
      | error e => rfl
      | ok others => exact congrArg Except.ok List.foldl_append

/-- Building statements one after another records all their effects in order. -/
theorem foldlM_build (scope : LoopScope) (body : List Statement) (routine : GalecAudit.Routine) :
    body.foldlM (fun routine s => s.build scope routine) routine =
      (listEffects scope body).map fun effects => effects.foldl Effect.record routine := by
  rw [listEffects_eq_mapM, foldlM_record]
  simp only [Statement.build, bind_pure_comp]
  rfl

/-- The flat form of a routine is the opened routine with its statements built onto it. -/
theorem Routine.flatten_eq_build (records : List RecordType) (r : Routine) :
    (r.flatten records).map Prod.fst =
      r.body.foldlM (fun routine s => s.build [] routine) (r.opening records) := by
  rw [foldlM_build, Routine.flatten]
  cases listEffects [] r.body with
  | error e => rfl
  | ok effects =>
    refine congrArg Except.ok ?_
    change _ = effects.foldl Effect.record (r.opening records)
    rw [foldl_record]
    rfl

/-- Whether an effect goes into the record of its routine. -/
def Effect.recorded : Effect → Bool
  | .issue _ => false
  | _ => true

theorem foldl_record_filter (effects : List Effect) (routine : GalecAudit.Routine) :
    (effects.filter Effect.recorded).foldl Effect.record routine =
      effects.foldl Effect.record routine := by
  induction effects generalizing routine with
  | nil => rfl
  | cons effect rest ih =>
    rw [List.filter_cons]
    cases effect <;> exact ih _

/-- Two results are the same error, or the same effects up to issues. -/
def SameRecord (x y : Except InvalidLiteral (List Effect)) : Prop :=
  x.map (List.filter Effect.recorded) = y.map (List.filter Effect.recorded)

namespace SameRecord

variable {x y x' y' : Except InvalidLiteral (List Effect)}

theorem refl (x : Except InvalidLiteral (List Effect)) : SameRecord x x := Eq.refl _

theorem of_eq (h : x = y) : SameRecord x y := h ▸ refl x

/-- Results that agree up to issues do the same to a routine. -/
theorem foldl_eq (h : SameRecord x y) (routine : GalecAudit.Routine) :
    (x.map fun effects => effects.foldl Effect.record routine) =
      y.map fun effects => effects.foldl Effect.record routine := by
  have hf (z : Except InvalidLiteral (List Effect)) :
      (z.map fun effects => effects.foldl Effect.record routine) =
        (z.map (List.filter Effect.recorded)).map
          fun effects => effects.foldl Effect.record routine := by
    cases z with
    | error e => rfl
    | ok effects => exact congrArg Except.ok (foldl_record_filter effects routine).symm
  rw [hf x, hf y, h]

theorem append (h : SameRecord x y) (h' : SameRecord x' y') :
    SameRecord (do let first ← x; let second ← x'; return first ++ second)
      (do let first ← y; let second ← y'; return first ++ second) := by
  unfold SameRecord at *
  rcases x with e | first <;> rcases y with f | other <;> try cases h
  · rfl
  · rcases x' with e' | second <;> rcases y' with f' | another <;> try cases h'
    · rfl
    · have hf : first.filter Effect.recorded = other.filter Effect.recorded := Except.ok.inj h
      have hs : second.filter Effect.recorded = another.filter Effect.recorded := Except.ok.inj h'
      refine congrArg Except.ok ?_
      rw [List.filter_append, List.filter_append, hf, hs]

/-- Steps that agree up to issues on every member of a list agree on the row. -/
theorem flatten {α : Type} {l : List α} {f g : α → Except InvalidLiteral (List Effect)}
    (h : ∀ a ∈ l, SameRecord (f a) (g a)) :
    SameRecord (List.flatten <$> l.mapM f) (List.flatten <$> l.mapM g) := by
  induction l with
  | nil => exact refl _
  | cons a rest ih =>
    have hr := ih fun b hb => h b (List.mem_cons_of_mem a hb)
    have ha := append (h a List.mem_cons_self) hr
    simpa only [List.mapM_cons, map_bind, bind_map_left, map_pure, List.flatten_cons] using ha

theorem filter_issues (issues : List Diagnostic) (effects : List Effect) :
    (issues.map Effect.issue ++ effects).filter Effect.recorded =
      effects.filter Effect.recorded := by
  induction issues with
  | nil => rfl
  | cons d rest ih => exact ih

/-- Issues before the effects make no difference. -/
theorem issues (h : SameRecord x y) (ds ds' : List Diagnostic) :
    SameRecord (do let effects ← x; return ds.map .issue ++ effects)
      (do let effects ← y; return ds'.map .issue ++ effects) := by
  unfold SameRecord at *
  rcases x with e | first <;> rcases y with f | other <;> try cases h
  · rfl
  · have hf : first.filter Effect.recorded = other.filter Effect.recorded := Except.ok.inj h
    refine congrArg Except.ok ?_
    rw [filter_issues, filter_issues, hf]

end SameRecord

end GalecAudit.Source
