import GalecAudit.Audit.Source
import GalecAudit.Proofs.Language.Mention

/-!
# Findings that are errors

The comparison of declarations and the checks of routines report nothing but errors that the policy for
duplicates does not touch. A source is clean exactly if both report nothing and the graded issues of its
block hold no error.
-/
namespace GalecAudit

theorem hasErrors_append (ds es : List Diagnostic) :
    hasErrors (ds ++ es) = (hasErrors ds || hasErrors es) := List.any_append

theorem hasErrors_map_inSource (source : String) (ds : List Diagnostic) :
    hasErrors (ds.map fun d => d.inSource source) = hasErrors ds := by
  unfold hasErrors
  rw [List.any_map]
  rfl

/-- A list of errors is free of errors only if it is empty. -/
theorem hasErrors_eq_false_iff {ds : List Diagnostic} (h : ∀ d ∈ ds, d.isError = true) :
    hasErrors ds = false ↔ ds = [] := by
  cases ds with
  | nil => exact iff_of_true rfl rfl
  | cons d rest =>
    have hd : hasErrors (d :: rest) = true := by
      rw [hasErrors, List.any_cons, h d List.mem_cons_self, Bool.true_or]
    rw [hd]
    simp

/-- An error that stays what it is under every policy for duplicates. -/
def Diagnostic.IsFirm (d : Diagnostic) : Prop :=
  d.isError = true ∧ d.code ≠ .duplicateDeclaration

theorem isFirm_errorAt {code : Code} (h : code ≠ .duplicateDeclaration) (line : Nat)
    (message : String) : (Diagnostic.errorAt code line message).IsFirm := ⟨rfl, h⟩

/-- A test that gives at most one finding, and that one is firm. -/
theorem isFirm_of_mem_ite {p : Prop} [Decidable p] {d e : Diagnostic} (he : e.IsFirm)
    (h : d ∈ if p then [] else [e]) : d.IsFirm := by
  split at h
  · cases h
  · rw [List.mem_singleton.1 h]
    exact he

theorem gradeAll_of_isFirm {settings : Settings} {ds : List Diagnostic}
    (h : ∀ d ∈ ds, d.IsFirm) : settings.gradeAll ds = ds := by
  unfold Settings.gradeAll
  induction ds with
  | nil => rfl
  | cons d rest ih =>
    have hd : settings.duplicates.grade d = some d := if_neg (h d List.mem_cons_self).2
    rw [List.filterMap_cons_some hd, ih fun e he => h e (List.mem_cons_of_mem d he)]

theorem gradeAll_append (settings : Settings) (ds es : List Diagnostic) :
    settings.gradeAll (ds ++ es) = settings.gradeAll ds ++ settings.gradeAll es :=
  List.filterMap_append

section Assignments

/-- What the check of a value may find: something that does not match the target, or a condition that is
not logical. -/
inductive Target.Finds (t : Target) : Diagnostic → Prop
  | mismatch (message : String) : Finds t (t.mismatch message)
  | illogical (condition : Expression) : Finds t (t.illogicalCondition condition)

variable {t : Target} {d : Diagnostic}

theorem Target.Finds.isFirm (h : t.Finds d) : d.IsFirm := by
  cases h with
  | mismatch => exact isFirm_errorAt (by decide) _ _
  | illogical => exact isFirm_errorAt (by decide) _ _

theorem Target.Finds.code_eq (h : t.Finds d) :
    d.code = .typeMismatch ∨ d.code = .illogicalCondition := by
  cases h with
  | mismatch => exact .inl rfl
  | illogical => exact .inr rfl

/-- A test that gives at most one finding gives that one. -/
theorem eq_of_mem_ite {p : Prop} [Decidable p] {e : Diagnostic} (h : d ∈ if p then [] else [e]) :
    d = e := by
  split at h
  · cases h
  · exact List.mem_singleton.1 h

theorem Target.exists_mismatch_of_mem_checkVariable {name : String}
    (h : d ∈ t.checkVariable name) : ∃ message, d = t.mismatch message := by
  unfold checkVariable at h
  split at h
  · exact ⟨_, eq_of_mem_ite h⟩
  · cases h

theorem Target.exists_mismatch_of_mem_checkOperation {value : Expression}
    (h : d ∈ t.checkOperation value) : ∃ message, d = t.mismatch message := by
  unfold checkOperation at h
  split at h
  · exact ⟨_, List.mem_singleton.1 h⟩
  · split at h
    · cases h
    · obtain ⟨name, _, hn⟩ := List.mem_flatMap.1 h
      exact exists_mismatch_of_mem_checkVariable hn

theorem Target.finds_of_exists (h : ∃ message, d = t.mismatch message) : t.Finds d := by
  obtain ⟨message, rfl⟩ := h
  exact .mismatch message

theorem Target.finds_of_mem_checkCondition {condition : Expression}
    (h : d ∈ t.checkCondition condition) : t.Finds d :=
  eq_of_mem_ite h ▸ .illogical condition

theorem Target.mem_checkAll {es : List Expression} :
    d ∈ t.checkAll es ↔ ∃ e ∈ es, d ∈ t.check e := by
  induction es with
  | nil => simp [checkAll]
  | cons e rest ih => simp [checkAll, ih]

theorem Target.mem_checkArms {arms : List (Expression × Expression)} :
    d ∈ t.checkArms arms ↔ ∃ arm ∈ arms, d ∈ t.check arm.2 := by
  induction arms with
  | nil => simp [checkArms]
  | cons arm rest ih => simp [checkArms, ih]

theorem Target.finds_of_mem_check (value : Expression) (h : d ∈ t.check value) : t.Finds d := by
  induction value using Expression.induct with
  | constant type text line =>
    rw [check] at h
    exact finds_of_exists ⟨_, eq_of_mem_ite h⟩
  | reference r => exact finds_of_exists (exists_mismatch_of_mem_checkVariable h)
  | binary left op right line => exact finds_of_exists (exists_mismatch_of_mem_checkOperation h)
  | unary op operand line ih =>
    have hm : d ∈ t.check operand ∨ d ∈ [t.unaryMismatch op] := by
      cases op <;> simp only [check] at h <;> split at h
      all_goals first | exact .inl h | exact .inr h
    rcases hm with hm | hm
    · exact ih hm
    · exact finds_of_exists ⟨_, List.mem_singleton.1 hm⟩
  | conditional condition value elseIfs otherwise line _ ihv iha iho =>
    rw [check] at h
    simp only [List.mem_append] at h
    rcases h with (((h | h) | h) | h) | h
    · exact finds_of_mem_checkCondition h
    · obtain ⟨arm, _, ha⟩ := List.mem_flatMap.1 h
      exact finds_of_mem_checkCondition ha
    · exact ihv h
    · obtain ⟨arm, harm, ha⟩ := mem_checkArms.1 h
      exact (iha arm harm).2 ha
    · exact iho h
  | call name args line _ =>
    rw [check] at h
    split at h
    · exact finds_of_exists ⟨_, eq_of_mem_ite h⟩
    · cases h
  | array elements line ih =>
    obtain ⟨e, he, hd⟩ := mem_checkAll.1 h
    exact ih e he hd

/-- What is found on a binding is on its line. -/
theorem finds_of_mem_checkBinding {scope : Scope} {b : Binding} (h : d ∈ checkBinding scope b) :
    ∃ t : Target, t.line = b.line ∧ t.Finds d := by
  unfold checkBinding at h
  split at h
  · exact ⟨_, rfl, Target.finds_of_mem_check b.value h⟩
  · cases h

/-- What is found on the condition of a statement. -/
theorem exists_of_mem_checkCondition {scope : Scope} {c : Condition}
    (h : d ∈ checkCondition scope c) : ∃ e line, d = illogicalStatement e line := by
  unfold checkCondition at h
  split at h
  · exact ⟨_, _, eq_of_mem_ite h⟩
  · cases h

end Assignments

theorem isFirm_of_mem_checkRoutine {block : Block} {manifest : VariableTable} {routine : Routine}
    {d : Diagnostic} (h : d ∈ checkRoutine block manifest routine) : d.IsFirm := by
  unfold checkRoutine at h
  simp only [List.mem_append] at h
  rcases h with ((h | h) | h) | h
  · obtain ⟨p, _, rfl⟩ := List.mem_map.1 h
    exact isFirm_errorAt (by decide) _ _
  · obtain ⟨b, _, hb⟩ := List.mem_flatMap.1 h
    obtain ⟨t, _, ht⟩ := finds_of_mem_checkBinding hb
    exact ht.isFirm
  · obtain ⟨c, _, hc⟩ := List.mem_flatMap.1 h
    obtain ⟨e, line, rfl⟩ := exists_of_mem_checkCondition hc
    exact isFirm_errorAt (by decide) _ _
  · obtain ⟨p, _, rfl⟩ := List.mem_map.1 h
    exact isFirm_errorAt (by decide) _ _

theorem isFirm_of_mem_checkBlock {block : Block} {manifest : VariableTable} {d : Diagnostic}
    (h : d ∈ checkBlock block manifest) : d.IsFirm := by
  obtain ⟨routine, _, hr⟩ := List.mem_flatMap.1 h
  exact isFirm_of_mem_checkRoutine hr

theorem isFirm_of_mem_compareEntries {name : String} {listed declared : Entry} {d : Diagnostic}
    (h : d ∈ compareEntries name listed declared) : d.IsFirm := by
  unfold compareEntries at h
  rcases List.mem_append.1 h with h | h
  · exact isFirm_of_mem_ite (isFirm_errorAt (by decide) _ _) h
  · exact isFirm_of_mem_ite (isFirm_errorAt (by decide) _ _) h

theorem isFirm_of_mem_compareDeclarations {manifest : VariableTable} {block : Block}
    {d : Diagnostic} (h : d ∈ compareDeclarations manifest block) : d.IsFirm := by
  unfold compareDeclarations at h
  simp only [List.mem_append] at h
  rcases h with (h | h) | h
  · obtain ⟨p, _, rfl⟩ := List.mem_map.1 h
    exact isFirm_errorAt (by decide) _ _
  · obtain ⟨p, _, rfl⟩ := List.mem_map.1 h
    exact isFirm_errorAt (by decide) _ _
  · obtain ⟨p, _, hp⟩ := List.mem_flatMap.1 h
    split at hp
    · exact isFirm_of_mem_compareEntries hp
    · cases hp

/-- The findings on a block are free of errors exactly if its declarations and its routines have none
and its own issues hold no error under the policy. -/
theorem hasErrors_auditBlock_eq_false_iff {settings : Settings} {block : Block}
    {manifest : VariableTable} :
    hasErrors (settings.gradeAll (auditBlock block manifest)) = false ↔
      hasErrors (settings.gradeAll block.issues) = false ∧
        compareDeclarations manifest block = [] ∧ checkBlock block manifest = [] := by
  have hcompare : ∀ d ∈ compareDeclarations manifest block, d.IsFirm :=
    fun _ => isFirm_of_mem_compareDeclarations
  have hcheck : ∀ d ∈ checkBlock block manifest, d.IsFirm := fun _ => isFirm_of_mem_checkBlock
  unfold auditBlock
  rw [gradeAll_append, gradeAll_append, gradeAll_of_isFirm hcompare, gradeAll_of_isFirm hcheck,
    hasErrors_append, hasErrors_append, Bool.or_eq_false_iff, Bool.or_eq_false_iff,
    hasErrors_eq_false_iff fun d hd => (hcompare d hd).1,
    hasErrors_eq_false_iff fun d hd => (hcheck d hd).1, and_assoc]

end GalecAudit
