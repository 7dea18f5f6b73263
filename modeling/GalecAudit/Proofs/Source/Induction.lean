import GalecAudit.Source.Unroll
import Mathlib.Data.List.Forall2

/-!
# Induction over source trees

Induction principles for the expressions and the statements of the source, and the recursions over their
lists as the library's `mapM`.
-/
namespace GalecAudit

/-- A step after another one gives a result exactly if both do. -/
theorem bind_eq_ok_iff {ε α β : Type} {x : Except ε α} {f : α → Except ε β} {b : β} :
    x >>= f = .ok b ↔ ∃ a, x = .ok a ∧ f a = .ok b := by
  cases x with
  | error e =>
    refine iff_of_false (fun h => by cases h) ?_
    rintro ⟨a, h, -⟩
    cases h
  | ok a =>
    constructor
    · intro h
      exact ⟨a, rfl, h⟩
    · rintro ⟨first, ha, h⟩
      cases ha
      exact h

namespace Source

/-- A property of every expression in the subscripts of some segments. -/
def Segment.Each (p : Expr → Prop) (segments : List (Segment Expr)) : Prop :=
  ∀ segment ∈ segments, ∀ e ∈ segment.subscripts, p e

/-- Induction over expressions, with the claim for every expression directly inside. -/
@[elab_as_elim]
theorem Expr.induct {motive : Expr → Prop}
    (chain : ∀ first rest line, motive first → (∀ p ∈ rest, motive p.2) →
      motive (.chain first rest line))
    (unary : ∀ op operand line, motive operand → motive (.unary op operand line))
    (conditional : ∀ condition value elseIfs otherwise line, motive condition → motive value →
      (∀ arm ∈ elseIfs, motive arm.1 ∧ motive arm.2) → motive otherwise →
      motive (.conditional condition value elseIfs otherwise line))
    (paren : ∀ inner line, motive inner → motive (.paren inner line))
    (array : ∀ elements text line, (∀ e ∈ elements, motive e) → motive (.array elements text line))
    (size : ∀ isState segments accessLine dimension line, Segment.Each motive segments →
      motive dimension → motive (.size ⟨isState, segments, accessLine⟩ dimension line))
    (call : ∀ name args line, (∀ e ∈ args, motive e) → motive (.call ⟨name, args, line⟩))
    (literal : ∀ type text line, motive (.literal type text line))
    (access : ∀ isState segments line, Segment.Each motive segments →
      motive (.access ⟨isState, segments, line⟩))
    (e : Expr) : motive e := by
  refine @Expr.rec motive (fun rest => ∀ p ∈ rest, motive p.2)
    (fun arms => ∀ arm ∈ arms, motive arm.1 ∧ motive arm.2) (fun es => ∀ e ∈ es, motive e)
    (fun a => Segment.Each motive a.segments) (fun c => ∀ e ∈ c.args, motive e)
    (fun p => motive p.2) (fun arm => motive arm.1 ∧ motive arm.2) (Segment.Each motive)
    (fun segment => ∀ e ∈ segment.subscripts, motive e)
    chain unary conditional paren array ?size ?call literal ?access
    ?_ ?_ ?_ ?_ ?_ ?_ ?_ ?_ ?_ ?_ ?_ ?_ ?_ e
  case size =>
    intro a dimension line ha hd
    exact size a.isState a.segments a.line dimension line ha hd
  case call =>
    intro c hc
    exact call c.name c.args c.line hc
  case access =>
    intro a ha
    exact access a.isState a.segments a.line ha
  -- the empty lists, the longer ones, and the structures that hold lists
  · intro _ h; cases h
  · intro _ _ hfirst hrest; exact List.forall_mem_cons.2 ⟨hfirst, hrest⟩
  · intro _ h; cases h
  · intro _ _ hfirst hrest; exact List.forall_mem_cons.2 ⟨hfirst, hrest⟩
  · intro _ h; cases h
  · intro _ _ hfirst hrest; exact List.forall_mem_cons.2 ⟨hfirst, hrest⟩
  · intro _ _ _ h; exact h
  · intro _ _ _ h; exact h
  · intro _ _ h; exact h
  · intro _ _ hc hv; exact ⟨hc, hv⟩
  · intro _ h; cases h
  · intro _ _ hfirst hrest; exact List.forall_mem_cons.2 ⟨hfirst, hrest⟩
  · intro _ _ h; exact h

/-- Induction over statements, with the claim for every statement directly inside. -/
@[elab_as_elim]
theorem Statement.induct {motive : Statement → Prop}
    (assign : ∀ target value line, motive (.assign target value line))
    (assignMany : ∀ targets call line, motive (.assignMany targets call line))
    (call : ∀ call line, motive (.call call line))
    (branch : ∀ arms otherwise, (∀ arm ∈ arms, ∀ s ∈ arm.2, motive s) →
      (∀ s ∈ otherwise, motive s) → motive (.branch arms otherwise))
    (loop : ∀ iterator bounds header body line, (∀ s ∈ body, motive s) →
      motive (.loop iterator bounds header body line))
    (signal : ∀ names line, motive (.signal names line))
    (limit : ∀ targets line, motive (.limit targets line))
    (s : Statement) : motive s := by
  refine @Statement.rec motive (fun arms => ∀ arm ∈ arms, ∀ s ∈ arm.2, motive s)
    (fun body => ∀ s ∈ body, motive s) (fun arm => ∀ s ∈ arm.2, motive s)
    assign assignMany call branch loop signal limit ?_ ?_ ?_ ?_ ?_ s
  · intro _ h; cases h
  · intro _ _ hfirst hrest; exact List.forall_mem_cons.2 ⟨hfirst, hrest⟩
  · intro _ h; cases h
  · intro _ _ hfirst hrest; exact List.forall_mem_cons.2 ⟨hfirst, hrest⟩
  · intro _ _ h; exact h

/-- Outside of loops nothing is an iterator. -/
theorem iteratorValue?_nil (a : Access Expr) : a.iteratorValue? [] = none := by
  rw [Access.iteratorValue?]
  cases a.bareName? <;> rfl

/-- Steps that agree on every member of a list agree on the list. -/
theorem mapM_congr {m : Type → Type} [Monad m] [LawfulMonad m] {α β : Type} {f g : α → m β}
    {l : List α} (h : ∀ a ∈ l, f a = g a) : l.mapM f = l.mapM g := by
  induction l with
  | nil => rfl
  | cons a rest ih =>
    rw [List.mapM_cons, List.mapM_cons, h a List.mem_cons_self,
      ih fun b hb => h b (List.mem_cons_of_mem a hb)]

/-- A sequence of steps that succeeds has the result of each step. -/
theorem map_of_mapM {ε α β : Type} {f : α → Except ε β} {l : List α} {out : List β}
    (h : l.mapM f = .ok out) : l.map f = out.map .ok := by
  induction l generalizing out with
  | nil =>
    cases h
    rfl
  | cons a rest ih =>
    rw [List.mapM_cons] at h
    obtain ⟨b, hb, h⟩ := bind_eq_ok_iff.1 h
    obtain ⟨bs, hbs, h⟩ := bind_eq_ok_iff.1 h
    cases h
    rw [List.map_cons, List.map_cons, hb, ih hbs]

/-- Each result of a sequence of steps is the result of one of them. -/
theorem exists_of_mem_mapM {ε α β : Type} {f : α → Except ε β} {l : List α} {out : List β}
    (h : l.mapM f = .ok out) : ∀ b ∈ out, ∃ a ∈ l, f a = .ok b := by
  intro b hb
  have hmem : Except.ok b ∈ l.map f := map_of_mapM h ▸ List.mem_map_of_mem hb
  exact List.mem_map.1 hmem

/-- A sequence of steps that succeeds has a result for each of them. -/
theorem exists_result_of_mapM {ε α β : Type} {f : α → Except ε β} {l : List α} {out : List β}
    (h : l.mapM f = .ok out) : ∀ a ∈ l, ∃ b ∈ out, f a = .ok b := by
  intro a ha
  have hmem : f a ∈ out.map .ok := map_of_mapM h ▸ List.mem_map_of_mem ha
  obtain ⟨b, hb, heq⟩ := List.mem_map.1 hmem
  exact ⟨b, hb, heq.symm⟩

section Values

variable {scope : LoopScope} {rest : List (BinaryOperator × Expr)}

theorem chainValue?_cons (op : BinaryOperator) (operand : Expr) (left : Int) :
    chainValue? scope left ((op, operand) :: rest) =
      (operand.value? scope).bind fun b =>
        (applyConstant op left b).bind fun v => chainValue? scope v rest := by
  rw [chainValue?]
  cases operand.value? scope with
  | none => rfl
  | some b => cases h : applyConstant op left b <;> simp only [h, Option.bind_some, Option.bind_none]

theorem chainValue?_cons_eq_some_iff {op : BinaryOperator} {operand : Expr} {left w : Int} :
    chainValue? scope left ((op, operand) :: rest) = some w ↔
      ∃ b, operand.value? scope = some b ∧
        ∃ v, applyConstant op left b = some v ∧ chainValue? scope v rest = some w := by
  simp only [chainValue?_cons, Option.bind_eq_some_iff]

/-- Every operand of a constant chain is constant. -/
theorem chainValue?_isSome {left w : Int} (h : chainValue? scope left rest = some w) :
    ∀ p ∈ rest, (p.2.value? scope).isSome := by
  induction rest generalizing left with
  | nil => nofun
  | cons p rest ih =>
    obtain ⟨b, hb, v, -, hrest⟩ := chainValue?_cons_eq_some_iff.1 h
    exact List.forall_mem_cons.2 ⟨hb ▸ rfl, ih hrest⟩

/-- Expressions have values together if each of them has one. -/
theorem values?_eq_some_iff {es : List Expr} {vs : List Int} :
    values? scope es = some vs ↔ List.Forall₂ (fun e v => e.value? scope = some v) es vs := by
  rw [values?]
  induction es generalizing vs with
  | nil =>
    rw [List.mapM_nil, List.forall₂_nil_left_iff]
    exact Option.some_inj.trans eq_comm
  | cons e rest ih =>
    simp only [List.mapM_cons, Option.bind_eq_bind, Option.bind_eq_some_iff, ih,
      List.forall₂_cons_left_iff, Option.pure_def, Option.some_inj]
    constructor
    · rintro ⟨v, hv, others, hrest, rfl⟩
      exact ⟨v, others, hv, hrest, rfl⟩
    · rintro ⟨v, others, hv, hrest, rfl⟩
      exact ⟨v, hv, others, hrest, rfl⟩

/-- A loop without a step counts one by one. -/
theorem Bounds.values?_eq_some_iff {bounds : Bounds} {start step stop : Int} :
    bounds.values? scope = some (start, step, stop) ↔
      bounds.start.value? scope = some start ∧
      bounds.step.elim (step = 1) (fun e => e.value? scope = some step) ∧
      bounds.stop.value? scope = some stop := by
  obtain ⟨first, increment, last⟩ := bounds
  cases increment with
  | none =>
    simp only [values?, Option.bind_eq_bind, Option.bind_eq_some_iff, Option.pure_def, Option.elim_none,
      Option.some_inj, Prod.mk.injEq]
    grind
  | some e =>
    simp only [values?, Option.bind_eq_bind, Option.bind_eq_some_iff, Option.pure_def, Option.elim_some,
      Option.some_inj, Prod.mk.injEq]
    grind

end Values

variable (scope : LoopScope)

theorem resolveAll_eq_mapM (es : List Expr) :
    resolveAll scope es = es.mapM (Expr.resolve scope) := by
  induction es with
  | nil => rfl
  | cons e rest ih => rw [resolveAll, List.mapM_cons, ih]

/-- What one arm of a choice resolves to. -/
def resolveArm (arm : Expr × Expr) : Except InvalidLiteral (Expression × Expression) := do
  let condition ← arm.1.resolve scope
  let value ← arm.2.resolve scope
  return (condition, value)

theorem resolveArms_eq_mapM (arms : List (Expr × Expr)) :
    resolveArms scope arms = arms.mapM (resolveArm scope) := by
  induction arms with
  | nil => rfl
  | cons arm rest ih =>
    rw [resolveArms, List.mapM_cons, ih]
    simp only [resolveArm, bind_assoc, pure_bind]

/-- What one segment resolves to. -/
def Segment.resolve (segment : Segment Expr) :
    Except InvalidLiteral (String × List Reference) :=
  match values? scope segment.subscripts with
  | some [] => pure (segment.name, [])
  | some values => pure (indexedName segment.name values, [])
  | none => do
    let indices ← resolveAll scope segment.subscripts
    pure (segment.name, Expression.listReferences indices)

theorem resolveSegments_eq_mapM (segments : List (Segment Expr)) :
    resolveSegments scope segments = segments.mapM (Segment.resolve scope) := by
  induction segments with
  | nil => rfl
  | cons segment rest ih =>
    rw [resolveSegments, List.mapM_cons, ih, Segment.resolve]
    cases values? scope segment.subscripts with
    | none => simp only [bind_assoc, pure_bind]
    | some values => cases values <;> rfl

/-- A chain keeps its value where each operand keeps its own, in another scope or changed by `f`. -/
theorem chainValue?_map {a b : LoopScope} {f : Expr → Expr} {rest : List (BinaryOperator × Expr)}
    (h : ∀ p ∈ rest, (f p.2).value? b = p.2.value? a) (left : Int) :
    chainValue? b left (rest.map fun p => (p.1, f p.2)) = chainValue? a left rest := by
  induction rest generalizing left with
  | nil => rfl
  | cons p rest ih =>
    obtain ⟨op, operand⟩ := p
    have ho : (f operand).value? b = operand.value? a := h (op, operand) List.mem_cons_self
    have hr := ih fun p hp => h p (List.mem_cons_of_mem _ hp)
    rw [List.map_cons, chainValue?, chainValue?, ho]
    simp only [hr]

theorem resolveChain_map {a b : LoopScope} {f : Expr → Expr} {rest : List (BinaryOperator × Expr)}
    (h : ∀ p ∈ rest, (f p.2).resolve b = p.2.resolve a) (line : Nat) (left : Expression) :
    resolveChain b line left (rest.map fun p => (p.1, f p.2)) = resolveChain a line left rest := by
  induction rest generalizing left with
  | nil => rfl
  | cons p rest ih =>
    obtain ⟨op, operand⟩ := p
    have ho : (f operand).resolve b = operand.resolve a := h (op, operand) List.mem_cons_self
    have hr := ih fun p hp => h p (List.mem_cons_of_mem _ hp)
    rw [List.map_cons, resolveChain, resolveChain, ho]
    simp only [hr]

theorem listEffects_eq_mapM (body : List Statement) :
    listEffects scope body = List.flatten <$> body.mapM (Statement.effects scope) := by
  induction body with
  | nil => rfl
  | cons s rest ih =>
    rw [listEffects, List.mapM_cons, ih]
    simp only [map_bind, bind_map_left, map_pure, List.flatten_cons]

end Source
end GalecAudit
