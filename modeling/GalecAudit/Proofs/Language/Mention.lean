import GalecAudit.Check.Routine

/-!
# What an expression mentions

An induction principle for expressions, and the accesses that stand in a reference, an expression or a
routine as relations. The lists that the checks go through hold exactly these accesses.
-/
namespace GalecAudit

/-- Induction over expressions, with the claim for every expression directly inside. -/
@[elab_as_elim]
theorem Expression.induct {motive : Expression → Prop}
    (constant : ∀ type text line, motive (.constant type text line))
    (reference : ∀ r, motive (.reference r))
    (binary : ∀ left op right line, motive left → motive right →
      motive (.binary left op right line))
    (unary : ∀ op operand line, motive operand → motive (.unary op operand line))
    (conditional : ∀ condition value elseIfs otherwise line, motive condition → motive value →
      (∀ arm ∈ elseIfs, motive arm.1 ∧ motive arm.2) → motive otherwise →
      motive (.conditional condition value elseIfs otherwise line))
    (call : ∀ name args line, (∀ a ∈ args, motive a) → motive (.call name args line))
    (array : ∀ elements line, (∀ a ∈ elements, motive a) → motive (.array elements line))
    (e : Expression) : motive e := by
  refine @Expression.rec motive (fun arms => ∀ arm ∈ arms, motive arm.1 ∧ motive arm.2)
    (fun es => ∀ a ∈ es, motive a) (fun arm => motive arm.1 ∧ motive arm.2)
    constant reference binary unary conditional call array ?_ ?_ ?_ ?_ ?_ e
  · intro arm h
    cases h
  · intro _ _ hfirst hrest
    exact List.forall_mem_cons.2 ⟨hfirst, hrest⟩
  · intro a h
    cases h
  · intro _ _ hfirst hrest
    exact List.forall_mem_cons.2 ⟨hfirst, hrest⟩
  · intro _ _ hcondition hvalue
    exact ⟨hcondition, hvalue⟩

namespace Reference

/-- An access is the reference itself or stands in its subscripts, at any depth. -/
inductive Within (r : Reference) : Reference → Prop
  | self : Within r r
  | index {i s : Reference} : i ∈ s.indexReferences → Within r i → Within r s

mutual

theorem within_of_mem_withIndices {r : Reference} :
    ∀ s : Reference, r ∈ s.withIndices → r.Within s
  | ⟨name, isState, line, indices⟩, h => by
    rw [withIndices, List.mem_cons] at h
    rcases h with rfl | h
    · exact .self
    · obtain ⟨i, hi, hr⟩ := within_of_mem_allWithIndices indices h
      exact .index hi hr

theorem within_of_mem_allWithIndices {r : Reference} :
    ∀ rs : List Reference, r ∈ allWithIndices rs → ∃ s ∈ rs, r.Within s
  | [], h => by
    rw [allWithIndices] at h
    cases h
  | s :: rest, h => by
    rw [allWithIndices, List.mem_append] at h
    rcases h with h | h
    · exact ⟨s, List.mem_cons_self, within_of_mem_withIndices s h⟩
    · obtain ⟨t, ht, hr⟩ := within_of_mem_allWithIndices rest h
      exact ⟨t, List.mem_cons_of_mem s ht, hr⟩

end

theorem mem_allWithIndices {r : Reference} {rs : List Reference} :
    r ∈ allWithIndices rs ↔ ∃ s ∈ rs, r ∈ s.withIndices := by
  induction rs with
  | nil => simp [allWithIndices]
  | cons s rest ih => simp [allWithIndices, ih]

/-- A reference with its subscripts lists exactly the accesses within it. -/
theorem mem_withIndices_iff {r s : Reference} : r ∈ s.withIndices ↔ r.Within s := by
  constructor
  · exact within_of_mem_withIndices s
  · intro h
    induction h with
    | self => cases r; exact List.mem_cons_self
    | @index i s hi _ ih =>
      cases s
      exact List.mem_cons_of_mem _ (mem_allWithIndices.2 ⟨i, hi, ih⟩)

end Reference

namespace Expression

/-- An access stands somewhere in an expression: as an operand, in a condition, in an argument or in a
subscript. -/
inductive Mentions (r : Reference) : Expression → Prop
  | reference {s : Reference} : r.Within s → Mentions r (.reference s)
  | left {a op b line} : Mentions r a → Mentions r (.binary a op b line)
  | right {a op b line} : Mentions r b → Mentions r (.binary a op b line)
  | operand {op a line} : Mentions r a → Mentions r (.unary op a line)
  | condition {c v arms o line} : Mentions r c → Mentions r (.conditional c v arms o line)
  | value {c v arms o line} : Mentions r v → Mentions r (.conditional c v arms o line)
  | armCondition {c v o line} {arms : List (Expression × Expression)} {arm} :
      arm ∈ arms → Mentions r arm.1 → Mentions r (.conditional c v arms o line)
  | armValue {c v o line} {arms : List (Expression × Expression)} {arm} :
      arm ∈ arms → Mentions r arm.2 → Mentions r (.conditional c v arms o line)
  | otherwise {c v arms o line} : Mentions r o → Mentions r (.conditional c v arms o line)
  | argument {name line} {args : List Expression} {a} :
      a ∈ args → Mentions r a → Mentions r (.call name args line)
  | element {line} {elements : List Expression} {a} :
      a ∈ elements → Mentions r a → Mentions r (.array elements line)

theorem mem_listReferences {r : Reference} {es : List Expression} :
    r ∈ listReferences es ↔ ∃ e ∈ es, r ∈ e.references := by
  induction es with
  | nil => simp [listReferences]
  | cons e rest ih => simp [listReferences, ih]

theorem mem_armReferences {r : Reference} {arms : List (Expression × Expression)} :
    r ∈ armReferences arms ↔ ∃ arm ∈ arms, r ∈ arm.1.references ∨ r ∈ arm.2.references := by
  induction arms with
  | nil => simp [armReferences]
  | cons arm rest ih => simp [armReferences, ih, or_assoc]

theorem mentions_of_mem_references {r : Reference} (e : Expression) (h : r ∈ e.references) :
    e.Mentions r := by
  induction e using Expression.induct with
  | constant => cases h
  | reference => exact .reference (Reference.mem_withIndices_iff.1 h)
  | binary left op right line ihl ihr =>
    rw [references, List.mem_append] at h
    rcases h with h | h
    · exact .left (ihl h)
    · exact .right (ihr h)
  | unary op operand line ih => exact .operand (ih h)
  | conditional condition value elseIfs otherwise line ihc ihv iha iho =>
    rw [references] at h
    simp only [List.mem_append] at h
    rcases h with ((h | h) | h) | h
    · exact .condition (ihc h)
    · exact .value (ihv h)
    · obtain ⟨arm, harm, hr | hr⟩ := mem_armReferences.1 h
      · exact .armCondition harm ((iha arm harm).1 hr)
      · exact .armValue harm ((iha arm harm).2 hr)
    · exact .otherwise (iho h)
  | call name args line ih =>
    obtain ⟨a, ha, hr⟩ := mem_listReferences.1 h
    exact .argument ha (ih a ha hr)
  | array elements line ih =>
    obtain ⟨a, ha, hr⟩ := mem_listReferences.1 h
    exact .element ha (ih a ha hr)

/-- The list of the accesses of an expression holds exactly those that the expression mentions. -/
theorem mem_references_iff {r : Reference} {e : Expression} : r ∈ e.references ↔ e.Mentions r := by
  constructor
  · exact mentions_of_mem_references e
  · intro h
    induction h with
    | reference h => exact Reference.mem_withIndices_iff.2 h
    | left _ ih | condition _ ih => simp [references, ih]
    | right _ ih | value _ ih | otherwise _ ih => simp [references, ih]
    | operand _ ih => exact ih
    | armCondition harm _ ih =>
      have hr := mem_armReferences.2 ⟨_, harm, Or.inl ih⟩
      simp [references, hr]
    | armValue harm _ ih =>
      have hr := mem_armReferences.2 ⟨_, harm, Or.inr ih⟩
      simp [references, hr]
    | argument ha _ ih | element ha _ ih => exact mem_listReferences.2 ⟨_, ha, ih⟩

end Expression

/-- An access stands somewhere in a routine: in a target or a value of a binding, in a condition, in a
target or an argument of a call, or in a target of a limitation. -/
inductive Routine.Mentions (routine : Routine) (r : Reference) : Prop
  | target {b} : b ∈ routine.bindings → r.Within b.target → Mentions routine r
  | value {b} : b ∈ routine.bindings → b.value.Mentions r → Mentions routine r
  | condition {c e line} : c ∈ routine.conditions → c.logical? = some (e, line) → e.Mentions r →
      Mentions routine r
  | result {s t} : s ∈ routine.calls → t ∈ s.targets → r.Within t → Mentions routine r
  | argument {s a} : s ∈ routine.calls → a ∈ s.call.args → a.Mentions r → Mentions routine r
  | limit {l t} : l ∈ routine.limits → t ∈ l.targets → r.Within t → Mentions routine r

theorem Reference.mem_allWithIndices_iff {r : Reference} {rs : List Reference} :
    r ∈ allWithIndices rs ↔ ∃ s ∈ rs, r.Within s := by
  rw [mem_allWithIndices]
  exact exists_congr fun s => and_congr_right fun _ => mem_withIndices_iff

theorem Expression.mem_listReferences_iff {r : Reference} {es : List Expression} :
    r ∈ listReferences es ↔ ∃ e ∈ es, e.Mentions r := by
  rw [mem_listReferences]
  exact exists_congr fun e => and_congr_right fun _ => mem_references_iff

theorem Condition.mem_references_iff {r : Reference} {c : Condition} :
    r ∈ c.references ↔ ∃ e line, c.logical? = some (e, line) ∧ e.Mentions r := by
  rcases c with ⟨e, line⟩ | ⟨name, negated, members, fallback, line⟩
  · simp [references, logical?, Expression.mem_references_iff]
  · cases fallback <;> simp [references, logical?, Expression.mem_references_iff]

/-- The declaration check of a routine goes through exactly the accesses that the routine mentions. -/
theorem Routine.mem_references_iff {routine : Routine} {r : Reference} :
    r ∈ routine.references ↔ routine.Mentions r := by
  simp only [Routine.references, List.mem_append, List.mem_flatMap,
    Reference.mem_withIndices_iff, Expression.mem_references_iff, Condition.mem_references_iff,
    Reference.mem_allWithIndices_iff, Expression.mem_listReferences_iff]
  constructor
  · rintro (((⟨b, hb, h | h⟩ | ⟨c, hc, e, line, hl, h⟩) | ⟨s, hs, ⟨t, ht, h⟩ | ⟨a, ha, h⟩⟩) |
      ⟨l, hl, t, ht, h⟩)
    · exact .target hb h
    · exact .value hb h
    · exact .condition hc hl h
    · exact .result hs ht h
    · exact .argument hs ha h
    · exact .limit hl ht h
  · intro h
    cases h with
    | target hb h => exact .inl (.inl (.inl ⟨_, hb, .inl h⟩))
    | value hb h => exact .inl (.inl (.inl ⟨_, hb, .inr h⟩))
    | condition hc hl h => exact .inl (.inl (.inr ⟨_, hc, _, _, hl, h⟩))
    | result hs ht h => exact .inl (.inr ⟨_, hs, .inl ⟨_, ht, h⟩⟩)
    | argument hs ha h => exact .inl (.inr ⟨_, hs, .inr ⟨_, ha, h⟩⟩)
    | limit hl ht h => exact .inr ⟨_, hl, _, ht, h⟩

end GalecAudit
