import GalecAudit.Proofs.Check.Soundness
import GalecAudit.Proofs.List.Distinct
import GalecAudit.Proofs.Source.Accesses

/-!
# Undeclared variables

The declaration check sees every access that the source reads, and reports each undeclared name once for
each line, where it comes first.
-/
namespace GalecAudit

/-- An access of a routine stands among those that the declaration check goes through. -/
theorem Routine.mem_keys_iff {routine : Routine} {key : String × Nat} :
    key ∈ routine.references.map Reference.key ↔ ∃ r, routine.Mentions r ∧ r.key = key := by
  simp only [List.mem_map, Routine.mem_references_iff]

/-- The names and lines that the declaration check reports. -/
def Routine.undeclared (scope : Scope) (routine : Routine) : List (String × Nat) :=
  ((routine.references.map Reference.key).filter fun key => (scope.lookup key.1).isNone).eraseDups

/-- The finding on a name that no table declares and a line on which it is accessed. -/
def undeclaredFinding (key : String × Nat) : Diagnostic where
  severity := .error
  code := .undeclaredVariable
  message := "The variable " ++ key.1 ++ " which is contained in the expressions (line " ++
    toString key.2 ++ ") is not declared anywhere in the Algorithm code block"
  line := some key.2
  source := none

theorem checkDeclarations_eq (scope : Scope) (routine : Routine) :
    checkDeclarations scope routine = (routine.undeclared scope).map undeclaredFinding := by
  rw [Routine.undeclared, List.filter_map]
  rfl

theorem Routine.mem_undeclared_iff {scope : Scope} {routine : Routine} {key : String × Nat} :
    key ∈ routine.undeclared scope ↔
      scope.lookup key.1 = none ∧ ∃ r, routine.Mentions r ∧ r.key = key := by
  rw [undeclared, List.mem_eraseDups, List.mem_filter, Option.isNone_iff_eq_none, mem_keys_iff,
    and_comm]

/-- The reported names stand in the order in which the routine accesses them first. -/
theorem Routine.pairwise_undeclared (scope : Scope) (routine : Routine) :
    (routine.undeclared scope).Pairwise fun a b =>
      (routine.references.map Reference.key).idxOf a <
        (routine.references.map Reference.key).idxOf b := by
  unfold undeclared
  generalize routine.references.map Reference.key = keys
  let p (key : String × Nat) : Bool := (scope.lookup key.1).isNone
  refine (pairwise_eraseDups (keys.filter p)).imp_of_mem fun {a b} _ hb hlt => ?_
  have hkept : p b = true := (List.mem_filter.1 (List.mem_eraseDups.1 hb)).2
  exact idxOf_lt_of_filter hkept hlt

/-- No variable escapes the declaration check, and none is reported twice. The accesses of a resolved
expression have exactly the names and lines that its tree reads, at any depth, and a routine gets one
finding for each undeclared name and line among its accesses, in the order in which these come first. -/
theorem checkDeclarations_complete :
    (∀ (scope : Source.LoopScope) (tree : Source.Expr) (e : Expression),
      tree.resolve scope = .ok e → ∀ key, key ∈ e.references.map Reference.key ↔
        ∃ a : Source.Access Source.Expr, a.ReadIn scope tree ∧ a.key scope = key) ∧
    ∀ (scope : Scope) (routine : Routine), ∃ keys : List (String × Nat),
      checkDeclarations scope routine = keys.map undeclaredFinding ∧
      keys.Nodup ∧
      (∀ key, key ∈ keys ↔
        scope.lookup key.1 = none ∧ ∃ r, routine.Mentions r ∧ r.key = key) ∧
      keys.Pairwise fun a b => (routine.references.map Reference.key).idxOf a <
        (routine.references.map Reference.key).idxOf b := by
  refine ⟨fun scope tree e h key => tree.keepsReads e h, fun scope routine => ?_⟩
  exact ⟨routine.undeclared scope, checkDeclarations_eq scope routine, nodup_eraseDups _,
    fun key => Routine.mem_undeclared_iff, routine.pairwise_undeclared scope⟩

/-- The tree of `x[n * y[i, z]] + size(i, i)`, on two lines. -/
def nestedTree : Source.Expr :=
  .chain
    (.access ⟨false, [⟨"x", [.chain (.access ⟨true, [⟨"n", []⟩], 3⟩)
      [(.multiply, .access ⟨false, [⟨"y", [.access ⟨false, [⟨"i", []⟩], 3⟩,
        .access ⟨false, [⟨"z", []⟩], 4⟩]⟩], 3⟩)] 3]⟩], 3⟩)
    [(.add, .size ⟨false, [⟨"i", []⟩], 4⟩ (.access ⟨false, [⟨"i", []⟩], 4⟩) 4)] 3

/-- A method with one condition. -/
def conditionalRoutine (condition : Expression) : Routine where
  name := "DoStep"
  kind := .method
  line := 2
  signals := []
  locals := VariableTable.empty.insertMany [("n", ⟨.integer, .unspecified, 1, [], none, none⟩),
    ("i", ⟨.real, .unspecified, 1, [2], none, none⟩)]
  bindings := []
  conditions := [.expression condition 3]
  calls := []
  limits := []
  raised := []

/-- Inside a loop over `i` the tree is read on both lines. The name `i` counts as the array of the size
query, and as an iterator everywhere else. The name `z` is read twice on its line and reported once. -/
theorem reads_nestedTree : ∃ e, nestedTree.resolve [("i", 2)] = .ok e ∧
    e.references.map Reference.key =
      [("x", 3), ("n", 3), ("y", 3), ("z", 4), ("z", 4), ("i", 4)] ∧
    (∀ key, key ∈ e.references.map Reference.key ↔
      ∃ a : Source.Access Source.Expr, a.ReadIn [("i", 2)] nestedTree ∧ a.key [("i", 2)] = key) ∧
    checkDeclarations ⟨[(conditionalRoutine e).locals]⟩ (conditionalRoutine e) =
      [("x", 3), ("y", 3), ("z", 4)].map undeclaredFinding := by
  refine ⟨_, rfl, ?_, checkDeclarations_complete.1 _ _ _ rfl, ?_⟩
  · decide +kernel
  · decide +kernel

end GalecAudit
