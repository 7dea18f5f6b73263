import GalecAudit.Proofs.Language.Relabelling
import GalecAudit.Proofs.Source.Induction

/-!
# Trees without lines

The lines of a tree and the texts of its array constructors have no influence on what it resolves to,
except on the lines of that.
-/
namespace GalecAudit

namespace Reference

theorem unlinedAll_eq_map (rs : List Reference) : unlinedAll rs = rs.map unlined := by
  induction rs with
  | nil => rfl
  | cons r rest ih => rw [unlinedAll, List.map_cons, ih]

mutual

theorem withIndices_unlined : ∀ r : Reference, r.unlined.withIndices = r.withIndices.map unlined
  | ⟨name, isState, line, indices⟩ => by
    rw [unlined, withIndices, withIndices, List.map_cons, unlined, allWithIndices_unlined indices]

theorem allWithIndices_unlined :
    ∀ rs : List Reference, allWithIndices (unlinedAll rs) = (allWithIndices rs).map unlined
  | [] => rfl
  | r :: rest => by
    rw [unlinedAll, allWithIndices, allWithIndices, List.map_append, withIndices_unlined r,
      allWithIndices_unlined rest]

end

end Reference

namespace Expression

theorem listReferences_eq_flatMap (es : List Expression) :
    listReferences es = es.flatMap references := by
  induction es with
  | nil => rfl
  | cons e rest ih => rw [listReferences, List.flatMap_cons, ih]

theorem listReferences_map {f : Expression → Expression} {g : Reference → Reference}
    {es : List Expression} (h : ∀ e ∈ es, (f e).references = e.references.map g) :
    listReferences (es.map f) = (listReferences es).map g := by
  rw [listReferences_eq_flatMap, listReferences_eq_flatMap, List.flatMap_map, List.map_flatMap]
  rw [List.flatMap_def, List.flatMap_def, List.map_congr_left h]

theorem armReferences_unlined {arms : List (Expression × Expression)}
    (h : ∀ arm ∈ arms, arm.1.unlined.references = arm.1.references.map Reference.unlined ∧
      arm.2.unlined.references = arm.2.references.map Reference.unlined) :
    armReferences (arms.map fun arm => (arm.1.unlined, arm.2.unlined)) =
      (armReferences arms).map Reference.unlined := by
  induction arms with
  | nil => rfl
  | cons arm rest ih =>
    obtain ⟨⟨hc, hv⟩, hrest⟩ := List.forall_mem_cons.1 h
    rw [List.map_cons, armReferences, armReferences, hc, hv, ih hrest, List.map_append,
      List.map_append]

theorem unlined_call (name : String) (args : List Expression) (line : Nat) :
    (call name args line).unlined = .call name (args.map unlined) 0 := by
  rw [unlined, relabel, relabelAll_eq_map]
  rfl

theorem unlined_array (elements : List Expression) (line : Nat) :
    (array elements line).unlined = .array (elements.map unlined) 0 := by
  rw [unlined, relabel, relabelAll_eq_map]
  rfl

theorem unlined_conditional (condition value otherwise : Expression)
    (elseIfs : List (Expression × Expression)) (line : Nat) :
    (conditional condition value elseIfs otherwise line).unlined =
      .conditional condition.unlined value.unlined
        (elseIfs.map fun arm => (arm.1.unlined, arm.2.unlined)) otherwise.unlined 0 := by
  rw [unlined, relabel, relabelArms_eq_map]
  rfl

/-- The accesses of an expression without lines are those of the expression, without lines. -/
theorem references_unlined (e : Expression) :
    e.unlined.references = e.references.map Reference.unlined := by
  induction e using Expression.induct with
  | constant => rfl
  | reference r => exact r.withIndices_unlined
  | binary left op right line ihl ihr =>
    change left.unlined.references ++ right.unlined.references = _
    rw [ihl, ihr, references, List.map_append]
  | unary op operand line ih => exact ih
  | conditional condition value elseIfs otherwise line ihc ihv iha iho =>
    rw [unlined_conditional, references, references, ihc, ihv, iho, armReferences_unlined iha,
      List.map_append, List.map_append, List.map_append]
  | call name args line ih =>
    rw [unlined_call, references, references, listReferences_map ih]
  | array elements line ih =>
    rw [unlined_array, references, references, listReferences_map ih]

end Expression

namespace Source

mutual

/-- The tree without lines and without the texts of array constructors. -/
def Expr.unlined : Expr → Expr
  | .chain first rest _ => .chain first.unlined (unlinedChain rest) 0
  | .unary op operand _ => .unary op operand.unlined 0
  | .conditional condition value elseIfs otherwise _ =>
    .conditional condition.unlined value.unlined (unlinedArms elseIfs) otherwise.unlined 0
  | .paren inner _ => .paren inner.unlined 0
  | .array elements _ _ => .array (unlinedAll elements) "" 0
  | .size ⟨isState, segments, _⟩ dimension _ =>
    .size ⟨isState, unlinedSegments segments, 0⟩ dimension.unlined 0
  | .call ⟨name, args, _⟩ => .call ⟨name, unlinedAll args, 0⟩
  | .literal type text _ => .literal type text 0
  | .access ⟨isState, segments, _⟩ => .access ⟨isState, unlinedSegments segments, 0⟩

def unlinedChain : List (BinaryOperator × Expr) → List (BinaryOperator × Expr)
  | [] => []
  | (op, operand) :: rest => (op, operand.unlined) :: unlinedChain rest

def unlinedArms : List (Expr × Expr) → List (Expr × Expr)
  | [] => []
  | (condition, value) :: rest => (condition.unlined, value.unlined) :: unlinedArms rest

def unlinedAll : List Expr → List Expr
  | [] => []
  | e :: rest => e.unlined :: unlinedAll rest

def unlinedSegments : List (Segment Expr) → List (Segment Expr)
  | [] => []
  | ⟨name, subscripts⟩ :: rest => ⟨name, unlinedAll subscripts⟩ :: unlinedSegments rest

end

def Segment.unlined (s : Segment Expr) : Segment Expr := ⟨s.name, s.subscripts.map Expr.unlined⟩

def Access.unlined (a : Access Expr) : Access Expr := ⟨a.isState, a.segments.map Segment.unlined, 0⟩

def Call.unlined (c : Call Expr) : Call Expr := ⟨c.name, c.args.map Expr.unlined, 0⟩

section Lists

theorem unlinedAll_eq_map (es : List Expr) : unlinedAll es = es.map Expr.unlined := by
  induction es with
  | nil => rfl
  | cons e rest ih => rw [unlinedAll, List.map_cons, ih]

theorem unlinedChain_eq_map (rest : List (BinaryOperator × Expr)) :
    unlinedChain rest = rest.map fun p => (p.1, p.2.unlined) := by
  induction rest with
  | nil => rfl
  | cons p rest ih => rw [unlinedChain, List.map_cons, ih]

theorem unlinedArms_eq_map (arms : List (Expr × Expr)) :
    unlinedArms arms = arms.map fun arm => (arm.1.unlined, arm.2.unlined) := by
  induction arms with
  | nil => rfl
  | cons arm rest ih => rw [unlinedArms, List.map_cons, ih]

theorem unlinedSegments_eq_map (segments : List (Segment Expr)) :
    unlinedSegments segments = segments.map Segment.unlined := by
  induction segments with
  | nil => rfl
  | cons s rest ih =>
    rw [unlinedSegments, List.map_cons, ih, unlinedAll_eq_map]
    rfl

theorem Expr.unlined_access (a : Access Expr) : (Expr.access a).unlined = .access a.unlined := by
  rw [Expr.unlined, unlinedSegments_eq_map]
  rfl

theorem Expr.unlined_call (c : Call Expr) : (Expr.call c).unlined = .call c.unlined := by
  rw [Expr.unlined, unlinedAll_eq_map]
  rfl

theorem Expr.unlined_size (a : Access Expr) (dimension : Expr) (line : Nat) :
    (Expr.size a dimension line).unlined = .size a.unlined dimension.unlined 0 := by
  rw [Expr.unlined, unlinedSegments_eq_map]
  rfl

end Lists

section Values

variable {scope : LoopScope}

theorem Access.bareName?_unlined (a : Access Expr) : a.unlined.bareName? = a.bareName? := by
  obtain ⟨isState, segments, line⟩ := a
  cases isState with
  | true => rfl
  | false =>
    rcases segments with - | ⟨⟨name, subscripts⟩, - | ⟨second, rest⟩⟩
    · rfl
    · cases subscripts <;> rfl
    · cases subscripts <;> rfl

theorem Access.iteratorValue?_unlined (scope : LoopScope) (a : Access Expr) :
    a.unlined.iteratorValue? scope = a.iteratorValue? scope := by
  rw [iteratorValue?, bareName?_unlined, iteratorValue?]

/-- The value of a constant expression has nothing to do with lines. -/
theorem Expr.value?_unlined (e : Expr) : e.unlined.value? scope = e.value? scope := by
  induction e using Expr.induct with
  | chain first rest line ihf ihr =>
    rw [Expr.unlined, Expr.value?, Expr.value?, ihf, unlinedChain_eq_map]
    simp only [chainValue?_map ihr]
  | unary op operand line ih => cases op <;> simp only [Expr.unlined, Expr.value?, ih]
  | paren inner line ih => exact ih
  | literal type text line => cases type <;> rfl
  | access isState segments line ih =>
    rw [Expr.unlined_access]
    exact Access.iteratorValue?_unlined scope _
  | conditional | array | size | call => rfl

theorem values?_unlined (es : List Expr) :
    values? scope (es.map Expr.unlined) = values? scope es := by
  rw [values?, values?, List.mapM_map]
  exact mapM_congr fun e _ => e.value?_unlined

end Values

section Outcomes

variable {α β γ δ : Type}

/-- An invalid literal without its line. -/
def InvalidLiteral.unlined (e : InvalidLiteral) : InvalidLiteral := { e with line := 0 }

/-- A result with its lines dropped by a function, or an invalid literal without its line. -/
def dropLines (f : α → β) (x : Except InvalidLiteral α) : Except InvalidLiteral β :=
  (x.map f).mapError InvalidLiteral.unlined

theorem bind_dropLines {f : α → β} {g : γ → δ} {k : α → Except InvalidLiteral γ}
    {k' : β → Except InvalidLiteral δ} (x : Except InvalidLiteral α)
    (h : ∀ a, k' (f a) = dropLines g (k a)) : dropLines f x >>= k' = dropLines g (x >>= k) := by
  cases x with
  | error e => rfl
  | ok a => exact h a

theorem mapM_dropLines {u : α → β} {f : γ → δ} {g : α → Except InvalidLiteral γ}
    {g' : β → Except InvalidLiteral δ} {l : List α} (h : ∀ a ∈ l, g' (u a) = dropLines f (g a)) :
    (l.map u).mapM g' = dropLines (List.map f) (l.mapM g) := by
  induction l with
  | nil => rfl
  | cons a l ih =>
    obtain ⟨ha, hl⟩ := List.forall_mem_cons.1 h
    rw [List.map_cons, List.mapM_cons, List.mapM_cons, ha, ih hl]
    exact bind_dropLines _ fun b => bind_dropLines _ fun bs => rfl

end Outcomes

section Resolution

variable {scope : LoopScope}

theorem resolveChain_unlined {rest : List (BinaryOperator × Expr)}
    (h : ∀ p ∈ rest, p.2.unlined.resolve scope = dropLines Expression.unlined (p.2.resolve scope))
    (line : Nat) (left : Expression) :
    resolveChain scope 0 left.unlined (rest.map fun p => (p.1, p.2.unlined)) =
      dropLines Expression.unlined (resolveChain scope line left rest) := by
  induction rest generalizing left with
  | nil => rfl
  | cons p rest ih =>
    obtain ⟨op, operand⟩ := p
    obtain ⟨ho, hr⟩ := List.forall_mem_cons.1 h
    rw [List.map_cons, resolveChain, resolveChain, ho]
    exact bind_dropLines _ fun right => ih hr (.binary left op right line)

theorem resolveAll_unlined {es : List Expr}
    (h : ∀ e ∈ es, e.unlined.resolve scope = dropLines Expression.unlined (e.resolve scope)) :
    resolveAll scope (es.map Expr.unlined) =
      dropLines (List.map Expression.unlined) (resolveAll scope es) := by
  rw [resolveAll_eq_mapM, resolveAll_eq_mapM]
  exact mapM_dropLines h

theorem resolveArms_unlined {arms : List (Expr × Expr)}
    (h : ∀ arm ∈ arms,
      arm.1.unlined.resolve scope = dropLines Expression.unlined (arm.1.resolve scope) ∧
        arm.2.unlined.resolve scope = dropLines Expression.unlined (arm.2.resolve scope)) :
    resolveArms scope (arms.map fun arm => (arm.1.unlined, arm.2.unlined)) =
      dropLines (List.map fun arm => (arm.1.unlined, arm.2.unlined)) (resolveArms scope arms) := by
  rw [resolveArms_eq_mapM, resolveArms_eq_mapM]
  refine mapM_dropLines fun arm harm => ?_
  rw [resolveArm, resolveArm, (h arm harm).1, (h arm harm).2]
  exact bind_dropLines _ fun c => bind_dropLines _ fun v => rfl

/-- A resolved segment without the lines of the references in its subscripts. -/
def unlinedPart (part : String × List Reference) : String × List Reference :=
  (part.1, part.2.map Reference.unlined)

theorem resolveSegments_unlined {segments : List (Segment Expr)}
    (h : Segment.Each (fun e => e.unlined.resolve scope =
      dropLines Expression.unlined (e.resolve scope)) segments) :
    resolveSegments scope (segments.map Segment.unlined) =
      dropLines (List.map unlinedPart) (resolveSegments scope segments) := by
  rw [resolveSegments_eq_mapM, resolveSegments_eq_mapM]
  refine mapM_dropLines fun s hs => ?_
  rw [Segment.resolve, Segment.resolve, Segment.unlined]
  simp only [values?_unlined, resolveAll_unlined (h s hs)]
  cases values? scope s.subscripts with
  | some values => cases values <;> rfl
  | none =>
    refine bind_dropLines _ fun indices => ?_
    rw [Expression.listReferences_map fun e _ => e.references_unlined]
    rfl

theorem unlined_joined (isState : Bool) (parts : List (String × List Reference)) (line : Nat) :
    (joined isState parts line).unlined = joined isState (parts.map unlinedPart) 0 := by
  rw [joined, joined, Reference.unlined, Reference.unlinedAll_eq_map, List.map_map, List.flatMap_map,
    List.map_flatMap]
  rfl

/-- A tree without lines resolves to what the tree resolves to, without lines. -/
theorem Expr.resolve_unlined (e : Expr) :
    e.unlined.resolve scope = dropLines Expression.unlined (e.resolve scope) := by
  induction e using Expr.induct with
  | chain first rest line ihf ihr =>
    rw [Expr.unlined, Expr.resolve, Expr.resolve, ihf, unlinedChain_eq_map]
    exact bind_dropLines _ fun left => resolveChain_unlined ihr line left
  | unary op operand line ih =>
    rw [Expr.unlined, Expr.resolve, Expr.resolve, ih]
    exact bind_dropLines _ fun operand => rfl
  | conditional condition value elseIfs otherwise line ihc ihv iha iho =>
    rw [Expr.unlined, Expr.resolve, Expr.resolve, ihc, ihv, iho, unlinedArms_eq_map,
      resolveArms_unlined iha]
    refine bind_dropLines _ fun c => bind_dropLines _ fun v => bind_dropLines _ fun arms =>
      bind_dropLines _ fun o => ?_
    change _ = Except.ok (Expression.unlined _)
    rw [Expression.unlined_conditional]
    rfl
  | paren inner line ih => exact ih
  | array elements text line ih =>
    rw [Expr.unlined, Expr.resolve, Expr.resolve, unlinedAll_eq_map, resolveAll_unlined ih]
    refine bind_dropLines _ fun elements => ?_
    change _ = Except.ok (Expression.unlined _)
    rw [Expression.unlined_array]
    rfl
  | size isState segments accessLine dimension line ihs ihd =>
    rw [Expr.unlined_size, Expr.resolve, Access.unlined, Expr.resolve, ihd,
      resolveSegments_unlined ihs]
    refine bind_dropLines _ fun parts => bind_dropLines _ fun d => ?_
    change _ = Except.ok (Expression.unlined _)
    rw [Expression.unlined_call, List.map_cons, List.map_cons, List.map_nil]
    change _ = Except.ok (Expression.call _ [.reference (Reference.unlined _), _] _)
    rw [unlined_joined]
    rfl
  | call name args line ih =>
    rw [Expr.unlined_call, Call.unlined, Expr.resolve, Expr.resolve, resolveAll_unlined ih]
    refine bind_dropLines _ fun args => ?_
    change _ = Except.ok (Expression.unlined _)
    rw [Expression.unlined_call]
    rfl
  | literal type text line =>
    rw [Expr.unlined, Expr.resolve, Expr.resolve]
    split <;> rfl
  | access isState segments line ih =>
    have hvalue := Access.iteratorValue?_unlined scope ⟨isState, segments, line⟩
    rw [Expr.unlined_access, Access.unlined, Expr.resolve, Expr.resolve]
    rw [Access.unlined] at hvalue
    rw [hvalue]
    cases Access.iteratorValue? scope ⟨isState, segments, line⟩ with
    | some v => rfl
    | none =>
      rw [resolveSegments_unlined ih]
      refine bind_dropLines _ fun parts => ?_
      change _ = Except.ok (Expression.reference (Reference.unlined _))
      rw [unlined_joined]
      rfl

end Resolution
end Source
end GalecAudit
