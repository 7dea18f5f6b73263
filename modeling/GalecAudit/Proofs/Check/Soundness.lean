import GalecAudit.Proofs.Language.Mention

/-!
# What a clean check of a routine promises

A routine without findings mentions declared variables only, assigns values whose class and whose
variables fit the type of the target, and has logical conditions. The checker of assignments and the
classifier are recursions of their own; they meet in `Target.fits_of_check`.
-/
namespace GalecAudit

namespace ValueClass

theorem join_fits (a b : ValueClass) (type : PrimitiveType) :
    (a.join b).fits type = (a.fits type && b.fits type) := by
  cases a <;> cases b <;> cases type <;> rfl

theorem unknown_fits (type : PrimitiveType) : unknown.fits type = true := by cases type <;> rfl

theorem ofType_fits (type : PrimitiveType) : (ofType type).fits type = true := by
  cases type <;> rfl

theorem numeric_fits {type : PrimitiveType} (h : type ≠ .boolean) : numeric.fits type = true := by
  cases type <;> simp_all [fits, isNumeric]

theorem fits_boolean {c : ValueClass} (h : c.fits .boolean = true) : c = logical ∨ c = unknown := by
  cases c <;> simp_all [fits, isLogical]

theorem fits_number {c : ValueClass} {type : PrimitiveType} (ht : type ≠ .boolean)
    (h : c.fits type = true) : c = numeric ∨ c = unknown := by
  cases c <;> cases type <;> simp_all [fits, isNumeric]

end ValueClass

theorem classifyAll_fits_iff {scope : Scope} {type : PrimitiveType} {es : List Expression} :
    (classifyAll scope es).fits type = true ↔ ∀ e ∈ es, (classify scope e).fits type = true := by
  induction es with
  | nil => simp [classifyAll, ValueClass.unknown_fits]
  | cons e rest ih => simp [classifyAll, ValueClass.join_fits, ih]

theorem classifyArms_fits_iff {scope : Scope} {type : PrimitiveType}
    {arms : List (Expression × Expression)} :
    (classifyArms scope arms).fits type = true ↔
      ∀ arm ∈ arms, (classify scope arm.2).fits type = true := by
  induction arms with
  | nil => simp [classifyArms, ValueClass.unknown_fits]
  | cons arm rest ih => simp [classifyArms, ValueClass.join_fits, ih]

theorem PrimitiveType.ofBuiltin?_ne_boolean {name : String} {type : PrimitiveType}
    (h : ofBuiltin? name = some type) : type ≠ .boolean := by
  unfold ofBuiltin? at h
  split at h
  · cases h
    decide
  · split at h
    · cases h
      decide
    · cases h

/-- The value of a variable reaches the result of an expression through operators, branches and
elements. Calls, conditions and subscripts pass nothing on. -/
inductive Expression.Carries (r : Reference) : Expression → Prop
  | reference : Carries r (.reference r)
  | left {a op b line} : Carries r a → Carries r (.binary a op b line)
  | right {a op b line} : Carries r b → Carries r (.binary a op b line)
  | operand {op a line} : Carries r a → Carries r (.unary op a line)
  | value {c v arms o line} : Carries r v → Carries r (.conditional c v arms o line)
  | armValue {c v o line} {arms : List (Expression × Expression)} {arm} :
      arm ∈ arms → Carries r arm.2 → Carries r (.conditional c v arms o line)
  | otherwise {c v arms o line} : Carries r o → Carries r (.conditional c v arms o line)
  | element {line} {elements : List Expression} {a} :
      a ∈ elements → Carries r a → Carries r (.array elements line)

theorem mem_operandVariablesOfAll {name : String} {es : List Expression} :
    name ∈ operandVariablesOfAll es ↔ ∃ e ∈ es, name ∈ operandVariables e := by
  induction es with
  | nil => simp [operandVariablesOfAll]
  | cons e rest ih => simp [operandVariablesOfAll, ih]

theorem mem_operandVariablesOfArms {name : String} {arms : List (Expression × Expression)} :
    name ∈ operandVariablesOfArms arms ↔ ∃ arm ∈ arms, name ∈ operandVariables arm.2 := by
  induction arms with
  | nil => simp [operandVariablesOfArms]
  | cons arm rest ih => simp [operandVariablesOfArms, ih]

theorem Expression.Carries.mem_operandVariables {r : Reference} {e : Expression}
    (h : e.Carries r) : r.name ∈ operandVariables e := by
  induction h with
  | reference => exact List.mem_singleton_self r.name
  | left _ ih | value _ ih => simp [operandVariables, ih]
  | right _ ih | otherwise _ ih => simp [operandVariables, ih]
  | operand _ ih => exact ih
  | armValue harm _ ih =>
    have hn := mem_operandVariablesOfArms.2 ⟨_, harm, ih⟩
    simp [operandVariables, hn]
  | element ha _ ih => exact mem_operandVariablesOfAll.2 ⟨_, ha, ih⟩

namespace Target

open Expression (Carries)

theorem checkAll_eq_nil_iff {t : Target} {es : List Expression} :
    t.checkAll es = [] ↔ ∀ e ∈ es, t.check e = [] := by
  induction es with
  | nil => simp [checkAll]
  | cons e rest ih => simp [checkAll, ih]

theorem checkArms_eq_nil_iff {t : Target} {arms : List (Expression × Expression)} :
    t.checkArms arms = [] ↔ ∀ arm ∈ arms, t.check arm.2 = [] := by
  induction arms with
  | nil => simp [checkArms]
  | cons arm rest ih => simp [checkArms, ih]

theorem checkVariable_eq_nil_iff {t : Target} {name : String} :
    t.checkVariable name = [] ↔ ∀ entry, t.scope.lookup name = some entry → entry.type = t.type := by
  unfold checkVariable
  cases t.scope.lookup name with
  | none => simp
  | some entry => by_cases h : entry.type = t.type <;> simp [h]

theorem checkOperation_eq_nil_iff {t : Target} {e : Expression} :
    t.checkOperation e = [] ↔ (classify t.scope e).fits t.type = true ∧
      (t.type ≠ .boolean → ∀ name ∈ operandVariables e, t.checkVariable name = []) := by
  unfold checkOperation
  by_cases hf : (classify t.scope e).fits t.type = true
  · by_cases hb : t.type = .boolean
    · rw [hb] at hf
      simp [hf, hb]
    · simp [hf, hb]
  · simp [hf]

theorem check_not_eq_nil_iff {t : Target} {operand : Expression} {line : Nat} :
    t.check (.unary .not operand line) = [] ↔ t.type = .boolean ∧ t.check operand = [] := by
  by_cases h : t.type = .boolean <;> simp [check, h]

theorem check_negate_eq_nil_iff {t : Target} {operand : Expression} {line : Nat} :
    t.check (.unary .negate operand line) = [] ↔ t.type ≠ .boolean ∧ t.check operand = [] := by
  by_cases h : t.type = .boolean <;> simp [check, h]

/-- What a clean check says of each part of a choice. -/
theorem check_conditional_eq_nil_iff {t : Target} {c v o : Expression}
    {arms : List (Expression × Expression)} {line : Nat} :
    t.check (.conditional c v arms o line) = [] ↔
      (t.checkCondition c = [] ∧ ∀ arm ∈ arms, t.checkCondition arm.1 = []) ∧
      t.check v = [] ∧ (∀ arm ∈ arms, t.check arm.2 = []) ∧ t.check o = [] := by
  rw [check]
  simp only [List.append_eq_nil_iff, List.flatMap_eq_nil_iff, checkArms_eq_nil_iff, and_assoc]

/-- A value without findings has a class that fits the type of its target. -/
theorem fits_of_check {t : Target} (e : Expression) (h : t.check e = []) :
    (classify t.scope e).fits t.type = true := by
  induction e using Expression.induct with
  | constant type text line =>
    rw [check] at h
    by_cases ht : type = t.type
    · rw [classify, ← ht]
      exact ValueClass.ofType_fits type
    · simp [ht] at h
  | reference r =>
    rw [check, checkVariable_eq_nil_iff] at h
    rw [classify, Scope.classOf]
    cases hl : t.scope.lookup r.name with
    | none => exact ValueClass.unknown_fits t.type
    | some entry =>
      have ht := h entry hl
      rw [← ht]
      exact ValueClass.ofType_fits entry.type
  | binary left op right line =>
    rw [check, checkOperation_eq_nil_iff] at h
    exact h.1
  | unary op operand line ih =>
    cases op with
    | not =>
      obtain ⟨ht, ho⟩ := check_not_eq_nil_iff.1 h
      have hf := ih ho
      rw [ht] at hf ⊢
      have hl : (classify t.scope operand).isLogical = true := hf
      rw [classify, ValueClass.ofUnary, if_pos hl]
      rfl
    | negate =>
      obtain ⟨ht, ho⟩ := check_negate_eq_nil_iff.1 h
      have hn : (classify t.scope operand).isNumeric = true := by
        rcases ValueClass.fits_number ht (ih ho) with hc | hc <;> rw [hc] <;> rfl
      rw [classify, ValueClass.ofUnary, if_pos hn]
      exact ValueClass.numeric_fits ht
  | conditional condition value elseIfs otherwise line _ ihv iha iho =>
    obtain ⟨_, hv, ha, ho⟩ := check_conditional_eq_nil_iff.1 h
    have harms : (classifyArms t.scope elseIfs).fits t.type = true :=
      classifyArms_fits_iff.2 fun arm harm => (iha arm harm).2 (ha arm harm)
    simp only [classify, ValueClass.join_fits, ihv hv, harms, iho ho, Bool.and_self]
  | call name args line _ =>
    simp only [check] at h
    simp only [classify]
    cases hb : PrimitiveType.ofBuiltin? name with
    | none => exact ValueClass.unknown_fits t.type
    | some type =>
      by_cases ht : type = t.type
      · exact ValueClass.numeric_fits (ht ▸ PrimitiveType.ofBuiltin?_ne_boolean hb)
      · simp [hb, ht] at h
  | array elements line ih =>
    rw [check, checkAll_eq_nil_iff] at h
    rw [classify, classifyAll_fits_iff]
    exact fun a ha => ih a ha (h a ha)

/-- A declared variable whose value reaches a number without findings has the type of the target. -/
theorem type_of_check {t : Target} (ht : t.type ≠ .boolean) {e : Expression} (h : t.check e = [])
    {r : Reference} (hr : e.Carries r) {entry : Entry} (hl : t.scope.lookup r.name = some entry) :
    entry.type = t.type := by
  induction hr with
  | reference =>
    rw [check] at h
    exact checkVariable_eq_nil_iff.1 h entry hl
  | left hr _ =>
    have hn := (checkOperation_eq_nil_iff.1 h).2 ht r.name (Carries.left hr).mem_operandVariables
    exact checkVariable_eq_nil_iff.1 hn entry hl
  | right hr _ =>
    have hn := (checkOperation_eq_nil_iff.1 h).2 ht r.name (Carries.right hr).mem_operandVariables
    exact checkVariable_eq_nil_iff.1 hn entry hl
  | @operand op _ _ _ ih =>
    cases op with
    | not => exact ih (check_not_eq_nil_iff.1 h).2
    | negate => exact ih (check_negate_eq_nil_iff.1 h).2
  | value _ ih => exact ih (check_conditional_eq_nil_iff.1 h).2.1
  | armValue harm _ ih => exact ih ((check_conditional_eq_nil_iff.1 h).2.2.1 _ harm)
  | otherwise _ ih => exact ih (check_conditional_eq_nil_iff.1 h).2.2.2
  | element ha _ ih => exact ih (checkAll_eq_nil_iff.1 h _ ha)

end Target

theorem Expression.Carries.mentions {r : Reference} {e : Expression} (h : e.Carries r) :
    e.Mentions r := by
  induction h with
  | reference => exact .reference .self
  | left _ ih => exact .left ih
  | right _ ih => exact .right ih
  | operand _ ih => exact .operand ih
  | value _ ih => exact .value ih
  | armValue harm _ ih => exact .armValue harm ih
  | otherwise _ ih => exact .otherwise ih
  | element ha _ ih => exact .element ha ih

theorem eraseDups_eq_nil_iff {α : Type} [BEq α] {l : List α} : l.eraseDups = [] ↔ l = [] := by
  cases l <;> simp [List.eraseDups_cons]

/-- No finding on the declarations means that every access of the routine is declared. -/
theorem checkDeclarations_eq_nil_iff {scope : Scope} {routine : Routine} :
    checkDeclarations scope routine = [] ↔
      ∀ r, routine.Mentions r → ∃ entry, scope.lookup r.name = some entry := by
  simp only [checkDeclarations, List.map_eq_nil_iff, eraseDups_eq_nil_iff,
    List.filter_eq_nil_iff, Routine.mem_references_iff]
  refine forall_congr' fun r => imp_congr_right fun _ => ?_
  cases scope.lookup r.name <;> simp

theorem checkCondition_eq_nil_iff {scope : Scope} {c : Condition} :
    checkCondition scope c = [] ↔
      ∀ e line, c.logical? = some (e, line) → isLogical scope e = true := by
  unfold checkCondition
  cases hc : c.logical? with
  | none => simp
  | some p =>
    obtain ⟨e, line⟩ := p
    by_cases h : isLogical scope e <;> simp [h]

/-- The class of an expression fits where a truth value is required. -/
def Expression.IsCondition (scope : Scope) (e : Expression) : Prop :=
  classify scope e = .logical ∨ classify scope e = .unknown

/-- A value that may be assigned to a variable of a type: the classes agree, and all variables whose
values reach a number have the type of the target. -/
structure Expression.FitsTarget (scope : Scope) (type : PrimitiveType) (e : Expression) : Prop where
  logical : type = .boolean → e.IsCondition scope
  numeric : type ≠ .boolean → classify scope e = .numeric ∨ classify scope e = .unknown
  uniform : type ≠ .boolean → ∀ r, e.Carries r →
    ∃ entry, scope.lookup r.name = some entry ∧ entry.type = type

/-- A routine that is well typed in its scope. -/
structure Routine.WellTyped (scope : Scope) (routine : Routine) : Prop where
  declared : ∀ r, routine.Mentions r → ∃ entry, scope.lookup r.name = some entry
  assigned : ∀ b ∈ routine.bindings, ∃ target, scope.lookup b.target.name = some target ∧
    b.value.FitsTarget scope target.type
  tested : ∀ e line, .expression e line ∈ routine.conditions → e.IsCondition scope
  fallback : ∀ name negated members e line,
    .signal name negated members (some e) line ∈ routine.conditions → e.IsCondition scope

theorem fitsTarget_of_checkBinding {scope : Scope} {b : Binding} {target : Entry}
    (hl : scope.lookup b.target.name = some target)
    (hd : ∀ r, b.value.Mentions r → ∃ entry, scope.lookup r.name = some entry)
    (h : checkBinding scope b = []) : b.value.FitsTarget scope target.type := by
  simp only [checkBinding, hl] at h
  have hf := Target.fits_of_check b.value h
  constructor
  · intro ht
    exact ValueClass.fits_boolean (ht ▸ hf)
  · intro ht
    exact ValueClass.fits_number ht hf
  · intro ht r hr
    obtain ⟨entry, he⟩ := hd r hr.mentions
    exact ⟨entry, he, Target.type_of_check ht h hr he⟩

/-- A routine without findings is well typed, whatever the block and the manifest declare. -/
theorem wellTyped_of_checkRoutine (block : Block) (manifest : VariableTable) (routine : Routine)
    (h : checkRoutine block manifest routine = []) :
    routine.WellTyped (Scope.ofRoutine block routine manifest) := by
  simp only [checkRoutine, List.append_eq_nil_iff, List.flatMap_eq_nil_iff] at h
  obtain ⟨⟨⟨hd, hb⟩, hc⟩, -⟩ := h
  rw [checkDeclarations_eq_nil_iff] at hd
  have hcond : ∀ c ∈ routine.conditions, ∀ e line, c.logical? = some (e, line) →
      e.IsCondition (Scope.ofRoutine block routine manifest) := by
    intro c hm e line hl
    exact ValueClass.fits_boolean (checkCondition_eq_nil_iff.1 (hc c hm) e line hl)
  constructor
  · exact hd
  · intro b hm
    obtain ⟨target, hl⟩ := hd b.target (.target hm .self)
    exact ⟨target, hl, fitsTarget_of_checkBinding hl (fun r hr => hd r (.value hm hr)) (hb b hm)⟩
  · intro e line hm
    exact hcond _ hm e line rfl
  · intro name negated members e line hm
    exact hcond _ hm e line rfl

/-- The method `x[1] := if b and n > 0 then x[2] + sqrt(x[1]) else -x[2]` under the condition `not b`,
with `x` a local array of two numbers. -/
def choiceRoutine : Routine where
  name := "M"
  kind := .method
  line := 4
  signals := []
  locals := VariableTable.empty.declare .element "x"
    { type := .real, causality := .routineLocal, line := 5, dimensions := [2] }
  bindings := [
    { id := 0
      target := ⟨"x[1]", false, 8, []⟩
      value := .conditional
        (.binary (.reference ⟨"b", true, 8, []⟩) .and
          (.binary (.reference ⟨"n", true, 8, []⟩) .greater (.constant .integer "0" 8) 8) 8)
        (.binary (.reference ⟨"x[2]", false, 8, []⟩) .add
          (.call "sqrt" [.reference ⟨"x[1]", false, 8, []⟩] 8) 8)
        [] (.unary .negate (.reference ⟨"x[2]", false, 8, []⟩) 8) 8
      line := 8 }]
  conditions := [.expression (.unary .not (.reference ⟨"b", true, 7, []⟩) 7) 7]
  calls := []
  limits := []
  raised := []

/-- A block that declares the flag and the counter of `choiceRoutine`. -/
def choiceBlock : Block where
  name := "B"
  line := 1
  entities := VariableTable.empty.declare .element "n"
    { type := .integer, causality := .input, line := 2 }
  protectedVariables := VariableTable.empty.declare .element "b"
    { type := .boolean, causality := .state, line := 3 }
  records := []
  signals := []
  routines := [choiceRoutine]
  issues := []

theorem wellTyped_choiceRoutine :
    checkRoutine choiceBlock .empty choiceRoutine = [] ∧
      choiceRoutine.WellTyped (Scope.ofRoutine choiceBlock choiceRoutine .empty) := by
  have h : checkRoutine choiceBlock .empty choiceRoutine = [] := by decide +kernel
  exact ⟨h, wellTyped_of_checkRoutine choiceBlock .empty choiceRoutine h⟩

end GalecAudit
