import GalecAudit.Proofs.Check.Soundness
import GalecAudit.Proofs.Language.Part
import Mathlib.Logic.Basic

/-!
# Conditions of choices

Which conditions inside the values and conditions of a routine the check looks at. A choice that an
assigned value consists of has its conditions tested; a choice among the operands of an operation, in a
condition or in an argument has not.
-/
namespace GalecAudit

namespace Expression

/-- A condition of a choice that an expression consists of, seen through prefix operators, branches and
the elements of arrays. -/
inductive TestedIn (test : Expression) : Expression → Prop
  | condition {v arms o line} : TestedIn test (.conditional test v arms o line)
  | armCondition {c v o line} {arms : List (Expression × Expression)} {arm} :
      arm ∈ arms → arm.1 = test → TestedIn test (.conditional c v arms o line)
  | value {c v arms o line} : TestedIn test v → TestedIn test (.conditional c v arms o line)
  | armValue {c v o line} {arms : List (Expression × Expression)} {arm} :
      arm ∈ arms → TestedIn test arm.2 → TestedIn test (.conditional c v arms o line)
  | otherwise {c v arms o line} : TestedIn test o → TestedIn test (.conditional c v arms o line)
  | operand {op a line} : TestedIn test a → TestedIn test (.unary op a line)
  | element {line} {elements : List Expression} {a} :
      a ∈ elements → TestedIn test a → TestedIn test (.array elements line)

mutual

/-- The expression with the literal `true` for each condition of a choice in it. -/
def unconditioned : Expression → Expression
  | constant type text line => .constant type text line
  | reference r => .reference r
  | binary left op right line => .binary left.unconditioned op right.unconditioned line
  | unary op operand line => .unary op operand.unconditioned line
  | conditional _ value elseIfs otherwise line =>
    .conditional (.constant .boolean "true" line) value.unconditioned (unconditionedArms line elseIfs)
      otherwise.unconditioned line
  | call name args line => .call name (unconditionedAll args) line
  | array elements line => .array (unconditionedAll elements) line

def unconditionedAll : List Expression → List Expression
  | [] => []
  | e :: rest => e.unconditioned :: unconditionedAll rest

def unconditionedArms (line : Nat) :
    List (Expression × Expression) → List (Expression × Expression)
  | [] => []
  | (_, value) :: rest =>
    (.constant .boolean "true" line, value.unconditioned) :: unconditionedArms line rest

end

theorem unconditionedAll_eq_map (es : List Expression) :
    unconditionedAll es = es.map unconditioned := by
  induction es with
  | nil => rfl
  | cons e rest ih => rw [unconditionedAll, List.map_cons, ih]

theorem unconditionedArms_eq_map (line : Nat) (arms : List (Expression × Expression)) :
    unconditionedArms line arms =
      arms.map fun arm => (.constant .boolean "true" line, arm.2.unconditioned) := by
  induction arms with
  | nil => rfl
  | cons arm rest ih => rw [unconditionedArms, List.map_cons, ih]

end Expression

section Unconditioned

variable {scope : Scope} {es : List Expression} {arms : List (Expression × Expression)}

theorem classifyAll_unconditioned
    (h : ∀ e ∈ es, classify scope e.unconditioned = classify scope e) :
    classifyAll scope (es.map Expression.unconditioned) = classifyAll scope es := by
  induction es with
  | nil => rfl
  | cons e rest ih =>
    obtain ⟨he, hrest⟩ := List.forall_mem_cons.1 h
    rw [List.map_cons, classifyAll, classifyAll, he, ih hrest]

theorem classifyArms_unconditioned (line : Nat)
    (h : ∀ arm ∈ arms, classify scope arm.2.unconditioned = classify scope arm.2) :
    classifyArms scope (Expression.unconditionedArms line arms) = classifyArms scope arms := by
  induction arms with
  | nil => rfl
  | cons arm rest ih =>
    obtain ⟨harm, hrest⟩ := List.forall_mem_cons.1 h
    rw [Expression.unconditionedArms, classifyArms, classifyArms, harm, ih hrest]

/-- The class of an expression does not depend on the conditions in it. -/
theorem classify_unconditioned (scope : Scope) (e : Expression) :
    classify scope e.unconditioned = classify scope e := by
  induction e using Expression.induct with
  | constant => rfl
  | reference => rfl
  | binary left op right line ihl ihr =>
    rw [Expression.unconditioned, classify, classify, ihl, ihr]
  | unary op operand line ih => rw [Expression.unconditioned, classify, classify, ih]
  | conditional condition value elseIfs otherwise line _ ihv iha iho =>
    rw [Expression.unconditioned, classify, classify, ihv, iho,
      classifyArms_unconditioned line fun arm harm => (iha arm harm).2]
  | call => rfl
  | array elements line ih =>
    rw [Expression.unconditioned, Expression.unconditionedAll_eq_map, classify, classify,
      classifyAll_unconditioned ih]

theorem operandVariablesOfAll_unconditioned
    (h : ∀ e ∈ es, operandVariables e.unconditioned = operandVariables e) :
    operandVariablesOfAll (es.map Expression.unconditioned) = operandVariablesOfAll es := by
  induction es with
  | nil => rfl
  | cons e rest ih =>
    obtain ⟨he, hrest⟩ := List.forall_mem_cons.1 h
    rw [List.map_cons, operandVariablesOfAll, operandVariablesOfAll, he, ih hrest]

theorem operandVariablesOfArms_unconditioned (line : Nat)
    (h : ∀ arm ∈ arms, operandVariables arm.2.unconditioned = operandVariables arm.2) :
    operandVariablesOfArms (Expression.unconditionedArms line arms) =
      operandVariablesOfArms arms := by
  induction arms with
  | nil => rfl
  | cons arm rest ih =>
    obtain ⟨harm, hrest⟩ := List.forall_mem_cons.1 h
    rw [Expression.unconditionedArms, operandVariablesOfArms, operandVariablesOfArms, harm,
      ih hrest]

/-- The variables that flow into a value do not depend on the conditions in it. -/
theorem operandVariables_unconditioned (e : Expression) :
    operandVariables e.unconditioned = operandVariables e := by
  induction e using Expression.induct with
  | constant => rfl
  | reference => rfl
  | binary left op right line ihl ihr =>
    rw [Expression.unconditioned, operandVariables, operandVariables, ihl, ihr]
  | unary op operand line ih => exact ih
  | conditional condition value elseIfs otherwise line _ ihv iha iho =>
    rw [Expression.unconditioned, operandVariables, operandVariables, ihv, iho,
      operandVariablesOfArms_unconditioned line fun arm harm => (iha arm harm).2]
  | call name args line ih =>
    rw [Expression.unconditioned, Expression.unconditionedAll_eq_map, operandVariables,
      operandVariables, operandVariablesOfAll_unconditioned ih]
  | array elements line ih =>
    rw [Expression.unconditioned, Expression.unconditionedAll_eq_map]
    exact operandVariablesOfAll_unconditioned ih

end Unconditioned

namespace Target

open Expression (TestedIn)

theorem checkOperation_unconditioned (t : Target) (e : Expression) :
    t.checkOperation e.unconditioned = t.checkOperation e := by
  rw [checkOperation, checkOperation, classify_unconditioned, operandVariables_unconditioned]

theorem checkCondition_eq_nil_iff {t : Target} {c : Expression} :
    t.checkCondition c = [] ↔ isLogical t.scope c = true := by
  by_cases h : isLogical t.scope c = true <;> simp [checkCondition, h]

/-- What a choice tests: its own conditions, and what its branches test. -/
theorem forall_testedIn_conditional {P : Expression → Prop} {c v o : Expression}
    {arms : List (Expression × Expression)} {line : Nat} :
    (∀ test, TestedIn test (.conditional c v arms o line) → P test) ↔
      (P c ∧ ∀ arm ∈ arms, P arm.1) ∧ (∀ test, test.TestedIn v → P test) ∧
        (∀ arm ∈ arms, ∀ test, test.TestedIn arm.2 → P test) ∧ ∀ test, test.TestedIn o → P test := by
  constructor
  · intro h
    exact ⟨⟨h c .condition, fun arm harm => h arm.1 (.armCondition harm rfl)⟩,
      fun test ht => h test (.value ht), fun arm harm test ht => h test (.armValue harm ht),
      fun test ht => h test (.otherwise ht)⟩
  · rintro ⟨⟨hc, harms⟩, hv, ha, ho⟩ test ht
    cases ht with
    | condition => exact hc
    | armCondition harm he => exact he ▸ harms _ harm
    | value ht => exact hv test ht
    | armValue harm ht => exact ha _ harm test ht
    | otherwise ht => exact ho test ht

/-- A value has no findings exactly if the conditions that it tests are logical and it has none whatever
its conditions are. -/
theorem check_eq_nil_iff_testedIn {t : Target} (e : Expression) :
    t.check e = [] ↔
      (∀ test, test.TestedIn e → isLogical t.scope test = true) ∧ t.check e.unconditioned = [] := by
  induction e using Expression.induct with
  | constant type text line =>
    rw [Expression.unconditioned, and_iff_right]
    exact fun _ ht => by cases ht
  | reference r =>
    rw [Expression.unconditioned, and_iff_right]
    exact fun _ ht => by cases ht
  | binary left op right line =>
    have hcheck := t.checkOperation_unconditioned (.binary left op right line)
    rw [Expression.unconditioned] at hcheck
    rw [Expression.unconditioned, check, check, hcheck, and_iff_right]
    exact fun _ ht => by cases ht
  | unary op operand line ih =>
    have htests : (∀ test, TestedIn test (.unary op operand line) → isLogical t.scope test = true) ↔
        ∀ test, test.TestedIn operand → isLogical t.scope test = true :=
      ⟨fun h test ht => h test (.operand ht), fun h test ht => by
        cases ht with
        | operand ht => exact h test ht⟩
    rw [htests, Expression.unconditioned]
    cases op with
    | not => rw [check_not_eq_nil_iff, check_not_eq_nil_iff, ih, and_left_comm]
    | negate => rw [check_negate_eq_nil_iff, check_negate_eq_nil_iff, ih, and_left_comm]
  | conditional condition value elseIfs otherwise line _ ihv iha iho =>
    have htrue : isLogical t.scope (.constant .boolean "true" line) = true := rfl
    have harms : (∀ arm ∈ elseIfs, t.check arm.2 = []) ↔
        (∀ arm ∈ elseIfs, ∀ test, test.TestedIn arm.2 → isLogical t.scope test = true) ∧
          ∀ arm ∈ elseIfs, t.check arm.2.unconditioned = [] := by
      rw [← forall₂_and]
      exact forall₂_congr fun arm harm => (iha arm harm).2
    rw [forall_testedIn_conditional, Expression.unconditioned, check_conditional_eq_nil_iff,
      check_conditional_eq_nil_iff, Expression.unconditionedArms_eq_map, ihv, iho, harms]
    simp only [checkCondition_eq_nil_iff, List.forall_mem_map, htrue, implies_true, true_and]
    constructor
    · rintro ⟨hc, ⟨hvt, hv⟩, ⟨hat, ha⟩, hot, ho⟩
      exact ⟨⟨hc, hvt, hat, hot⟩, hv, ha, ho⟩
    · rintro ⟨⟨hc, hvt, hat, hot⟩, hv, ha, ho⟩
      exact ⟨hc, ⟨hvt, hv⟩, ⟨hat, ha⟩, hot, ho⟩
  | call name args line =>
    rw [Expression.unconditioned, and_iff_right]
    · rfl
    · exact fun _ ht => by cases ht
  | array elements line ih =>
    have htests : (∀ test, TestedIn test (.array elements line) → isLogical t.scope test = true) ↔
        ∀ e ∈ elements, ∀ test, test.TestedIn e → isLogical t.scope test = true :=
      ⟨fun h e he test ht => h test (.element he ht), fun h test ht => by
        cases ht with
        | element he ht => exact h _ he test ht⟩
    rw [htests, Expression.unconditioned, Expression.unconditionedAll_eq_map, check, check,
      checkAll_eq_nil_iff, checkAll_eq_nil_iff, List.forall_mem_map, ← forall₂_and]
    exact forall₂_congr ih

end Target

def Binding.unconditioned (b : Binding) : Binding := { b with value := b.value.unconditioned }

def Condition.unconditioned : Condition → Condition
  | .expression e line => .expression e.unconditioned line
  | .signal name negated members fallback line =>
    .signal name negated members (fallback.map Expression.unconditioned) line

section Routines

variable {scope : Scope}

theorem isLogical_unconditioned (e : Expression) :
    isLogical scope e.unconditioned = isLogical scope e := by
  rw [isLogical, isLogical, classify_unconditioned]

theorem isCondition_iff {e : Expression} : e.IsCondition scope ↔ isLogical scope e = true := by
  constructor
  · rintro (h | h) <;> rw [isLogical, h] <;> rfl
  · exact ValueClass.fits_boolean

/-- A condition of a statement is judged by its class alone. -/
theorem checkCondition_unconditioned_eq_nil_iff {c : Condition} :
    checkCondition scope c.unconditioned = [] ↔ checkCondition scope c = [] := by
  have hlogical : c.unconditioned.logical? =
      c.logical?.map fun p => (p.1.unconditioned, p.2) := by
    rcases c with ⟨e, line⟩ | ⟨name, negated, members, fallback, line⟩
    · rfl
    · cases fallback <;> rfl
  rw [checkCondition_eq_nil_iff, checkCondition_eq_nil_iff, hlogical]
  rcases c.logical? with _ | ⟨e, line⟩
  · simp
  · simp [isLogical_unconditioned]

theorem checkBinding_eq_nil_iff_testedIn {b : Binding} {target : Entry}
    (hl : scope.lookup b.target.name = some target) :
    checkBinding scope b = [] ↔
      (∀ test : Expression, test.TestedIn b.value → test.IsCondition scope) ∧
      checkBinding scope b.unconditioned = [] := by
  have hu : scope.lookup b.unconditioned.target.name = some target := hl
  simp only [checkBinding, hl, hu, isCondition_iff]
  exact Target.check_eq_nil_iff_testedIn b.value

end Routines

/-- What a clean check says of the conditions of choices. Those that the assigned values test are logical,
and no other one counts: the rest of the check is the same with `true` for every condition. -/
theorem checkRoutine_eq_nil_iff_testedIn (block : Block) (manifest : VariableTable)
    (routine : Routine) :
    checkRoutine block manifest routine = [] ↔
      checkDeclarations (Scope.ofRoutine block routine manifest) routine = [] ∧
      (∀ b ∈ routine.bindings, ∀ test : Expression, test.TestedIn b.value →
        test.IsCondition (Scope.ofRoutine block routine manifest)) ∧
      (∀ b ∈ routine.bindings,
        checkBinding (Scope.ofRoutine block routine manifest) b.unconditioned = []) ∧
      (∀ c ∈ routine.conditions,
        checkCondition (Scope.ofRoutine block routine manifest) c.unconditioned = []) ∧
      checkSignals block routine = [] := by
  have hbindings :
      checkDeclarations (Scope.ofRoutine block routine manifest) routine = [] →
      ∀ b ∈ routine.bindings, checkBinding (Scope.ofRoutine block routine manifest) b = [] ↔
        (∀ test : Expression, test.TestedIn b.value →
          test.IsCondition (Scope.ofRoutine block routine manifest)) ∧
          checkBinding (Scope.ofRoutine block routine manifest) b.unconditioned = [] := by
    intro hd b hb
    obtain ⟨target, hl⟩ := checkDeclarations_eq_nil_iff.1 hd b.target (.target hb .self)
    exact checkBinding_eq_nil_iff_testedIn hl
  simp only [checkRoutine, List.append_eq_nil_iff, List.flatMap_eq_nil_iff, and_assoc,
    checkCondition_unconditioned_eq_nil_iff]
  refine and_congr_right fun hd => ?_
  rw [forall₂_congr (hbindings hd), forall₂_and, and_assoc]

/-- The method `y := 1.0 + (if 1 then 2.0 else 3.0)`. -/
def numericChoiceRoutine : Routine where
  name := "M"
  kind := .method
  line := 5
  signals := []
  locals := .empty
  bindings := [
    { id := 0
      target := ⟨"y", true, 7, []⟩
      value := .binary (.constant .real "1.0" 7) .add
        (.conditional (.constant .integer "1" 7) (.constant .real "2.0" 7) []
          (.constant .real "3.0" 7) 7) 7
      line := 7 }]
  conditions := []
  calls := []
  limits := []
  raised := []

def numericChoiceBlock : Block where
  name := "B"
  line := 1
  entities := .empty
  protectedVariables := VariableTable.empty.declare .element "y"
    { type := .real, causality := .state, line := 3 }
  records := []
  signals := []
  routines := [numericChoiceRoutine]
  issues := []

/-- A clean check does not vouch for the condition of a choice that is an operand. -/
theorem clean_check_of_numeric_condition :
    checkRoutine numericChoiceBlock .empty numericChoiceRoutine = [] ∧
      ∃ b ∈ numericChoiceRoutine.bindings, ∃ c v arms o line,
        Expression.PartOf (.conditional c v arms o line) b.value ∧
          classify (Scope.ofRoutine numericChoiceBlock numericChoiceRoutine .empty) c =
            .numeric := by
  refine ⟨by decide +kernel, _, List.mem_singleton.2 rfl, .constant .integer "1" 7,
    .constant .real "2.0" 7, [], .constant .real "3.0" 7, 7, .right .self, rfl⟩

end GalecAudit
