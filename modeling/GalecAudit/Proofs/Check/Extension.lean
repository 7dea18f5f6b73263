import GalecAudit.Proofs.Check.Errors
import GalecAudit.Proofs.Check.Soundness
import GalecAudit.Proofs.Variable.Shadowing
import Mathlib.Order.Lattice

/-!
# More declarations

A scope that resolves more names classifies every expression at least as high, and so hides no finding on
types and conditions. What it can take away are findings on undeclared variables.
-/
namespace GalecAudit

namespace ValueClass

/-- An unknown value is below every other class, an invalid one is above, and logical and numeric values
are not comparable. The class of several branches is their least upper bound. -/
instance : SemilatticeSup ValueClass where
  le a b := a = unknown ∨ a = b ∨ b = invalid
  le_refl _ := .inr (.inl rfl)
  le_trans a b c hab hbc := by
    rcases hab with rfl | rfl | rfl
    · exact .inl rfl
    · exact hbc
    · rcases hbc with h | h | h
      · cases h
      · exact .inr (.inr h.symm)
      · exact .inr (.inr h)
  le_antisymm a b hab hba := by
    rcases hab with rfl | rfl | rfl
    · rcases hba with h | h | h
      · exact h.symm
      · exact h.symm
      · cases h
    · rfl
    · rcases hba with h | h | h
      · cases h
      · exact h.symm
      · exact h
  sup := join
  le_sup_left a b := by cases a <;> cases b <;> simp [join]
  le_sup_right a b := by cases a <;> cases b <;> simp [join]
  sup_le a b c hac hbc := by
    cases a <;> cases b <;> cases c <;> simp_all [join]

variable {a b c d : ValueClass}

theorem le_iff : a ≤ b ↔ a = unknown ∨ a = b ∨ b = invalid := Iff.rfl

theorem unknown_le (a : ValueClass) : unknown ≤ a := .inl rfl

theorem join_mono (hab : a ≤ b) (hcd : c ≤ d) : a.join c ≤ b.join d := sup_le_sup hab hcd

/-- What fits a type still fits it when less is known. -/
theorem fits_of_le (type : PrimitiveType) (h : a ≤ b) (hb : b.fits type = true) :
    a.fits type = true := by
  rcases h with rfl | rfl | rfl
  · exact unknown_fits type
  · exact hb
  · cases type <;> cases hb

theorem ofUnary_mono (op : UnaryOperator) (h : a ≤ b) : ofUnary op a ≤ ofUnary op b := by
  cases op <;> cases a <;> cases b <;> simp_all [le_iff, ofUnary, isLogical, isNumeric]

theorem ofBinary_mono (op : BinaryOperator) (hab : a ≤ b) (hcd : c ≤ d) :
    ofBinary op a c ≤ ofBinary op b d := by
  have hl (x y : ValueClass) (h : x ≤ y) : y.isLogical = true → x.isLogical = true :=
    fits_of_le .boolean h
  have hn (x y : ValueClass) (h : x ≤ y) : y.isNumeric = true → x.isNumeric = true :=
    fits_of_le .real h
  unfold ofBinary
  split
  · by_cases hb : (b.isLogical && d.isLogical) = true
    · rw [Bool.and_eq_true] at hb
      rw [hl _ _ hab hb.1, hl _ _ hcd hb.2, hb.1, hb.2]
    · rw [if_neg hb]
      exact .inr (.inr rfl)
  · by_cases hb : (b.isNumeric && d.isNumeric) = true
    · rw [Bool.and_eq_true] at hb
      rw [hn _ _ hab hb.1, hn _ _ hcd hb.2, hb.1, hb.2]
    · rw [if_neg hb]
      exact .inr (.inr rfl)

end ValueClass

/-- Every name that a scope resolves is resolved by another one too, to an entry of the same type. -/
def Scope.ExtendedBy (a b : Scope) : Prop :=
  ∀ name entry, a.lookup name = some entry →
    ∃ other, b.lookup name = some other ∧ other.type = entry.type

section Names

variable {a b : Scope}

/-- A scope is extended by one that knows more names without subscripts. -/
theorem Scope.extendedBy_of_find?
    (h : ∀ name, b.find? name = a.find? name ∨ a.find? name = none ∧ IsUnindexed name) :
    a.ExtendedBy b := by
  intro name entry hl
  obtain ⟨before, c, behind, hsplit, hc, hbefore⟩ := List.findSome?_eq_some_iff.1 hl
  have hfound : a.find? c.name ≠ none := fun hn => by simp [resolve?, hn] at hc
  refine ⟨entry, List.findSome?_eq_some_iff.2 ⟨before, c, behind, hsplit, ?_, ?_⟩, rfl⟩
  · rcases h c.name with he | ⟨hn, -⟩
    · rwa [resolve?, he]
    · exact absurd hn hfound
  · -- a candidate that only the larger scope knows comes behind `c`, as it has no subscripts
    intro d hd
    rcases h d.name with he | ⟨hn, hx⟩
    · rw [resolve?, he]
      exact hbefore d hd
    · have hpair := candidates_pairwise name
      rw [hsplit] at hpair
      have hsame := (List.pairwise_append.1 hpair).2.2 d hd c List.mem_cons_self hx
      exact absurd (hsame ▸ hn) hfound

/-- The scope of a routine is extended by a manifest that adds a new name. -/
theorem Scope.extendedBy_insert {block : Block} {routine : Routine} {manifest : VariableTable}
    {name : String} (hx : IsUnindexed name)
    (hnew : (Scope.ofRoutine block routine manifest).find? name = none) (entry : Entry) :
    (Scope.ofRoutine block routine manifest).ExtendedBy
      (Scope.ofRoutine block routine (manifest.insert name entry)) := by
  refine extendedBy_of_find? fun other => ?_
  by_cases hname : name = other
  · exact .inr (hname ▸ ⟨hnew, hx⟩)
  · refine .inl ?_
    simp [find?, ofRoutine, List.findSome?_cons, VariableTable.get?_insert, hname]

end Names

section Classes

variable {a b : Scope}

theorem classifyAll_mono {es : List Expression} (h : ∀ e ∈ es, classify a e ≤ classify b e) :
    classifyAll a es ≤ classifyAll b es := by
  induction es with
  | nil => exact le_refl _
  | cons e rest ih =>
    obtain ⟨he, hrest⟩ := List.forall_mem_cons.1 h
    exact ValueClass.join_mono he (ih hrest)

theorem classifyArms_mono {arms : List (Expression × Expression)}
    (h : ∀ arm ∈ arms, classify a arm.2 ≤ classify b arm.2) :
    classifyArms a arms ≤ classifyArms b arms := by
  induction arms with
  | nil => exact le_refl _
  | cons arm rest ih =>
    obtain ⟨harm, hrest⟩ := List.forall_mem_cons.1 h
    exact ValueClass.join_mono harm (ih hrest)

theorem Scope.ExtendedBy.classOf_le (h : a.ExtendedBy b) (name : String) :
    a.classOf name ≤ b.classOf name := by
  unfold Scope.classOf
  cases ha : a.lookup name with
  | none => exact ValueClass.unknown_le _
  | some entry =>
    obtain ⟨other, hb, ht⟩ := h name entry ha
    rw [hb]
    exact le_of_eq (congrArg ValueClass.ofType ht.symm)

/-- The class of an expression only grows with the declarations. -/
theorem Scope.ExtendedBy.classify_le (h : a.ExtendedBy b) (e : Expression) :
    classify a e ≤ classify b e := by
  induction e using Expression.induct with
  | constant => exact le_refl _
  | reference r => exact h.classOf_le r.name
  | binary left op right line ihl ihr => exact ValueClass.ofBinary_mono op ihl ihr
  | unary op operand line ih => exact ValueClass.ofUnary_mono op ih
  | conditional condition value elseIfs otherwise line _ ihv iha iho =>
    have harms := classifyArms_mono fun arm harm => (iha arm harm).2
    exact ValueClass.join_mono (ValueClass.join_mono ihv harms) iho
  | call => exact le_refl _
  | array elements line ih => exact classifyAll_mono ih

/-- What is logical with more declarations is logical with fewer. -/
theorem Scope.ExtendedBy.isLogical (h : a.ExtendedBy b) {e : Expression}
    (hb : isLogical b e = true) : isLogical a e = true :=
  ValueClass.fits_of_le .boolean (h.classify_le e) hb

end Classes

/-- For each finding of a list there is one of the same kind on the same line in another list. -/
def KeptIn (ds es : List Diagnostic) : Prop := ∀ d ∈ ds, ∃ e ∈ es, e.code = d.code ∧ e.line = d.line

namespace KeptIn

variable {ds es ds' es' : List Diagnostic}

theorem nil (es : List Diagnostic) : KeptIn [] es := fun _ h => by cases h

theorem append (h : KeptIn ds es) (h' : KeptIn ds' es') : KeptIn (ds ++ ds') (es ++ es') := by
  intro d hd
  rcases List.mem_append.1 hd with hd | hd
  · obtain ⟨e, he, hsame⟩ := h d hd
    exact ⟨e, List.mem_append_left _ he, hsame⟩
  · obtain ⟨e, he, hsame⟩ := h' d hd
    exact ⟨e, List.mem_append_right _ he, hsame⟩

theorem flatMap {α : Type} {l : List α} {f g : α → List Diagnostic}
    (h : ∀ x ∈ l, KeptIn (f x) (g x)) : KeptIn (l.flatMap f) (l.flatMap g) := by
  intro d hd
  obtain ⟨x, hx, hd⟩ := List.mem_flatMap.1 hd
  obtain ⟨e, he, hsame⟩ := h x hx d hd
  exact ⟨e, List.mem_flatMap.2 ⟨x, hx, he⟩, hsame⟩

theorem ite {p q : Prop} [Decidable p] [Decidable q] {d e : Diagnostic} (h : q → p)
    (hc : e.code = d.code) (hl : e.line = d.line) :
    KeptIn (if p then [] else [d]) (if q then [] else [e]) := by
  by_cases hp : p
  · rw [if_pos hp]
    exact nil _
  · rw [if_neg hp, if_neg fun hq => hp (h hq)]
    intro d' hd
    rw [List.mem_singleton.1 hd]
    exact ⟨e, List.mem_singleton_self e, hc, hl⟩

end KeptIn

section Findings

variable {a b : Scope}

/-- The target in another scope. -/
def Target.inScope (t : Target) (scope : Scope) : Target := { t with scope }

variable {t : Target}

theorem Target.keptIn_checkVariable (h : t.scope.ExtendedBy b) (name : String) :
    KeptIn (t.checkVariable name) ((t.inScope b).checkVariable name) := by
  unfold checkVariable
  cases ha : t.scope.lookup name with
  | none => exact .nil _
  | some entry =>
    obtain ⟨other, hb, ht⟩ := h name entry ha
    have hb' : (t.inScope b).scope.lookup name = some other := hb
    simp only [hb', ht]
    exact .ite id rfl rfl

theorem Target.keptIn_checkCondition (h : t.scope.ExtendedBy b) (condition : Expression) :
    KeptIn (t.checkCondition condition) ((t.inScope b).checkCondition condition) :=
  .ite h.isLogical rfl rfl

/-- Where an operation stops to fit when more is declared, its one finding stands for all that were found
on its variables. -/
theorem Target.keptIn_checkOperation (h : t.scope.ExtendedBy b) (value : Expression) :
    KeptIn (t.checkOperation value) ((t.inScope b).checkOperation value) := by
  by_cases hb : (classify b value).fits t.type = true
  · have ha := ValueClass.fits_of_le t.type (h.classify_le value) hb
    have hvariables : KeptIn ((operandVariables value).eraseDups.flatMap t.checkVariable)
        ((operandVariables value).eraseDups.flatMap (t.inScope b).checkVariable) :=
      .flatMap fun name _ => keptIn_checkVariable h name
    by_cases hboolean : t.type = .boolean
    · have hnone : t.checkOperation value = [] :=
        checkOperation_eq_nil_iff.2 ⟨ha, fun hne => absurd hboolean hne⟩
      rw [hnone]
      exact .nil _
    · simpa [checkOperation, inScope, ha, hb, hboolean] using hvariables
  · have hfound : (t.inScope b).checkOperation value = [(t.inScope b).operationMismatch] := by
      simp [checkOperation, inScope, hb]
    rw [hfound]
    intro d hd
    obtain ⟨message, rfl⟩ := exists_mismatch_of_mem_checkOperation hd
    exact ⟨_, List.mem_singleton_self _, rfl, rfl⟩

theorem Target.keptIn_checkAll {es : List Expression}
    (h : ∀ e ∈ es, KeptIn (t.check e) ((t.inScope b).check e)) :
    KeptIn (t.checkAll es) ((t.inScope b).checkAll es) := by
  induction es with
  | nil => exact .nil _
  | cons e rest ih =>
    obtain ⟨he, hrest⟩ := List.forall_mem_cons.1 h
    exact he.append (ih hrest)

theorem Target.keptIn_checkArms {arms : List (Expression × Expression)}
    (h : ∀ arm ∈ arms, KeptIn (t.check arm.2) ((t.inScope b).check arm.2)) :
    KeptIn (t.checkArms arms) ((t.inScope b).checkArms arms) := by
  induction arms with
  | nil => exact .nil _
  | cons arm rest ih =>
    obtain ⟨harm, hrest⟩ := List.forall_mem_cons.1 h
    exact harm.append (ih hrest)

/-- No finding on a value gets lost when more is declared, up to its text. -/
theorem Target.keptIn_check (h : t.scope.ExtendedBy b) (value : Expression) :
    KeptIn (t.check value) ((t.inScope b).check value) := by
  induction value using Expression.induct with
  | constant type text line => exact .ite id rfl rfl
  | reference r => exact keptIn_checkVariable h r.name
  | binary left op right line => exact keptIn_checkOperation h _
  | unary op operand line ih =>
    -- whether the operator fits depends on the type of the target alone
    have hop (fits : Bool) : KeptIn (if fits then t.check operand else [t.unaryMismatch op])
        (if fits then (t.inScope b).check operand else [(t.inScope b).unaryMismatch op]) := by
      cases fits with
      | true => exact ih
      | false =>
        intro d hd
        cases List.mem_singleton.1 hd
        exact ⟨_, List.mem_singleton_self _, rfl, rfl⟩
    cases op with
    | not => exact hop (t.type == .boolean)
    | negate => exact hop (t.type != .boolean)
  | conditional condition value elseIfs otherwise line _ ihv iha iho =>
    rw [check, check]
    have hconditions : KeptIn (elseIfs.flatMap fun arm => t.checkCondition arm.1)
        (elseIfs.flatMap fun arm => (t.inScope b).checkCondition arm.1) :=
      .flatMap fun arm _ => keptIn_checkCondition h arm.1
    have harms := keptIn_checkArms fun arm harm => (iha arm harm).2
    exact (((keptIn_checkCondition h condition).append hconditions).append ihv).append harms
      |>.append iho
  | call name args line _ =>
    rw [check, check]
    cases PrimitiveType.ofBuiltin? name with
    | none => exact .nil _
    | some type => exact .ite id rfl rfl
  | array elements line ih => exact keptIn_checkAll ih

/-- A target that is declared has the same type when more is declared. -/
theorem keptIn_checkBinding (h : a.ExtendedBy b) (binding : Binding) :
    KeptIn (checkBinding a binding) (checkBinding b binding) := by
  unfold checkBinding
  cases ha : a.lookup binding.target.name with
  | none => exact .nil _
  | some entry =>
    obtain ⟨other, hb, ht⟩ := h _ entry ha
    simp only [hb, ht]
    exact Target.keptIn_check (t := { name := _, type := entry.type, line := _, scope := a }) h
      binding.value

theorem keptIn_checkCondition (h : a.ExtendedBy b) (condition : Condition) :
    KeptIn (checkCondition a condition) (checkCondition b condition) := by
  unfold checkCondition
  rcases condition.logical? with _ | ⟨e, line⟩
  · exact .nil _
  · exact .ite h.isLogical rfl rfl

/-- A variable that is undeclared when more is declared was undeclared before. -/
theorem mem_checkDeclarations_of_extendedBy (h : a.ExtendedBy b) {routine : Routine}
    {d : Diagnostic} (hd : d ∈ checkDeclarations b routine) : d ∈ checkDeclarations a routine := by
  unfold checkDeclarations at hd ⊢
  obtain ⟨⟨name, line⟩, hp, rfl⟩ := List.mem_map.1 hd
  refine List.mem_map.2 ⟨(name, line), ?_, rfl⟩
  rw [List.mem_eraseDups] at hp ⊢
  obtain ⟨r, hr, hkey⟩ := List.mem_map.1 hp
  refine List.mem_map.2 ⟨r, ?_, hkey⟩
  obtain ⟨hr, hnone⟩ := List.mem_filter.1 hr
  refine List.mem_filter.2 ⟨hr, ?_⟩
  cases ha : a.lookup r.name with
  | none => rfl
  | some entry =>
    obtain ⟨other, hb, -⟩ := h r.name entry ha
    rw [hb] at hnone
    cases hnone

end Findings

/-- Declaring more never hides a type error. Where every name that resolves in one scope resolves in
another one to an entry of the same type, every expression has a class there that is at least as high.
So for two manifests under which the scopes of a routine are so related, each finding on a type or a
condition under the first has one of its kind on its line under the second, and each undeclared variable
under the second is one under the first. -/
theorem checkRoutine_of_extendedBy :
    (∀ a b : Scope, a.ExtendedBy b → ∀ e, classify a e ≤ classify b e) ∧
    ∀ (block : Block) (routine : Routine) (fewer more : VariableTable),
      (Scope.ofRoutine block routine fewer).ExtendedBy (Scope.ofRoutine block routine more) →
        (∀ d ∈ checkRoutine block fewer routine,
          d.code = .typeMismatch ∨ d.code = .illogicalCondition →
            ∃ e ∈ checkRoutine block more routine, e.code = d.code ∧ e.line = d.line) ∧
        ∀ d ∈ checkRoutine block more routine, d.code = .undeclaredVariable →
          d ∈ checkRoutine block fewer routine := by
  refine ⟨fun a b h e => h.classify_le e, fun block routine fewer more h => ⟨?_, ?_⟩⟩
  · intro d hd hcode
    simp only [checkRoutine, List.mem_append] at hd ⊢
    rcases hd with ((hd | hd) | hd) | hd
    · obtain ⟨p, _, rfl⟩ := List.mem_map.1 hd
      rcases hcode with hc | hc <;> cases hc
    · obtain ⟨e, he, hsame⟩ :=
        KeptIn.flatMap (fun b _ => keptIn_checkBinding h b) d hd
      exact ⟨e, .inl (.inl (.inr he)), hsame⟩
    · obtain ⟨e, he, hsame⟩ :=
        KeptIn.flatMap (fun c _ => keptIn_checkCondition h c) d hd
      exact ⟨e, .inl (.inr he), hsame⟩
    · obtain ⟨p, _, rfl⟩ := List.mem_map.1 hd
      rcases hcode with hc | hc <;> cases hc
  · intro d hd hcode
    simp only [checkRoutine, List.mem_append] at hd ⊢
    rcases hd with ((hd | hd) | hd) | hd
    · exact .inl (.inl (.inl (mem_checkDeclarations_of_extendedBy h hd)))
    · obtain ⟨b, _, hb⟩ := List.mem_flatMap.1 hd
      obtain ⟨t, _, ht⟩ := finds_of_mem_checkBinding hb
      rcases ht.code_eq with hc | hc <;> rw [hc] at hcode <;> cases hcode
    · obtain ⟨c, _, hc⟩ := List.mem_flatMap.1 hd
      obtain ⟨e, line, rfl⟩ := exists_of_mem_checkCondition hc
      cases hcode
    · obtain ⟨p, _, rfl⟩ := List.mem_map.1 hd
      cases hcode

/-- The method `n := n * v + u` under the condition `v and w`. -/
def widenedRoutine : Routine where
  name := "M"
  kind := .method
  line := 4
  signals := []
  locals := .empty
  bindings := [
    { id := 0
      target := ⟨"n", true, 8, []⟩
      value := .binary
        (.binary (.reference ⟨"n", true, 8, []⟩) .multiply (.reference ⟨"v", true, 8, []⟩) 8) .add
        (.reference ⟨"u", true, 8, []⟩) 8
      line := 8 }]
  conditions := [.expression
    (.binary (.reference ⟨"v", true, 7, []⟩) .and (.reference ⟨"w", true, 7, []⟩) 7) 7]
  calls := []
  limits := []
  raised := []

/-- A manifest that declares the number `v`. -/
def narrowManifest : VariableTable :=
  VariableTable.empty.insert "v" { type := .real, causality := .input, line := 1 }

/-- A manifest that declares the truth value `u` as well. -/
def wideManifest : VariableTable :=
  narrowManifest.insert "u" { type := .boolean, causality := .input, line := 2 }

/-- At first `v` alone does not fit its target. Once `u` is declared the whole operation does not. -/
theorem checkRoutine_widenedRoutine :
    (checkRoutine choiceBlock narrowManifest widenedRoutine).map (fun d => (d.code, d.line)) =
      [(.undeclaredVariable, some 8), (.undeclaredVariable, some 7), (.typeMismatch, some 8),
        (.illogicalCondition, some 7)] ∧
    (checkRoutine choiceBlock wideManifest widenedRoutine).map (fun d => (d.code, d.line)) =
      [(.undeclaredVariable, some 7), (.typeMismatch, some 8), (.illogicalCondition, some 7)] ∧
    (∀ e, classify (Scope.ofRoutine choiceBlock widenedRoutine narrowManifest) e ≤
      classify (Scope.ofRoutine choiceBlock widenedRoutine wideManifest) e) ∧
    (∀ d ∈ checkRoutine choiceBlock narrowManifest widenedRoutine,
      d.code = .typeMismatch ∨ d.code = .illogicalCondition →
        ∃ e ∈ checkRoutine choiceBlock wideManifest widenedRoutine,
          e.code = d.code ∧ e.line = d.line) ∧
    ∀ d ∈ checkRoutine choiceBlock wideManifest widenedRoutine, d.code = .undeclaredVariable →
      d ∈ checkRoutine choiceBlock narrowManifest widenedRoutine := by
  have hextended : (Scope.ofRoutine choiceBlock widenedRoutine narrowManifest).ExtendedBy
      (Scope.ofRoutine choiceBlock widenedRoutine wideManifest) :=
    Scope.extendedBy_insert (.of_isIdentifier (by decide)) (by decide +kernel) _
  exact ⟨by decide +kernel, by decide +kernel, checkRoutine_of_extendedBy.1 _ _ hextended,
    checkRoutine_of_extendedBy.2 choiceBlock widenedRoutine narrowManifest wideManifest hextended⟩

end GalecAudit
