import GalecAudit.Manifest.Reconciliation
import GalecAudit.Proofs.Variable.Table

/-!
# Exactness of reconciliation

Two comparisons, one in each direction, find nothing exactly if the tables agree: they list the same names
with the same types and sizes. That a kind of mismatch is kept once for a variable hides no variable.
-/
namespace GalecAudit

/-- What is compared of an entry. -/
def Entry.shape (entry : Entry) : PrimitiveType × List Nat := (entry.type, entry.dimensions)

/-- Two tables list the same names, with the same types and sizes. -/
def VariableTable.Agree (a b : VariableTable) : Prop :=
  ∀ name, (a.get? name).map Entry.shape = (b.get? name).map Entry.shape

/-- Each entry of the first table has one of its shape in the second. -/
def VariableTable.Covered (a b : VariableTable) : Prop :=
  ∀ name entry, a.get? name = some entry → (b.get? name).map Entry.shape = some entry.shape

theorem VariableTable.agree_iff {a b : VariableTable} :
    a.Agree b ↔ a.Covered b ∧ b.Covered a := by
  constructor
  · intro h
    refine ⟨fun name entry he => ?_, fun name entry he => ?_⟩
    · rw [← h name, he]
      rfl
    · rw [h name, he]
      rfl
  · rintro ⟨hab, hba⟩ name
    cases ha : a.get? name with
    | some entry => exact (hab name entry ha).symm
    | none =>
      cases hb : b.get? name with
      | none => rfl
      | some entry =>
        have h := hba name entry hb
        rw [ha] at h
        cases h

theorem Mismatch.ofEntry_eq_nil_iff {first second name : String} {entry : Entry}
    {other : Option Entry} :
    Mismatch.ofEntry first second name entry other = [] ↔
      other.map Entry.shape = some entry.shape := by
  cases other with
  | none => simp [ofEntry]
  | some other =>
    have hs : other.shape = entry.shape ↔
        entry.type = other.type ∧ entry.dimensions = other.dimensions := by
      rw [Entry.shape, Entry.shape, Prod.mk.injEq, eq_comm, @eq_comm _ other.dimensions]
    simp [ofEntry, hs]

theorem Side.mismatches_eq_nil_iff {first second : Side} :
    first.mismatches second = [] ↔ first.table.Covered second.table := by
  unfold Side.mismatches VariableTable.Covered
  rw [List.flatMap_eq_nil_iff]
  constructor
  · intro h name entry he
    exact Mismatch.ofEntry_eq_nil_iff.1 (h (name, entry) (VariableTable.mem_toList_iff.2 he))
  · rintro h ⟨name, entry⟩ hm
    exact Mismatch.ofEntry_eq_nil_iff.2 (h name entry (VariableTable.mem_toList_iff.1 hm))

namespace Reconciliation

/-- A mismatch is left out only where another one is there. -/
theorem add_mismatches_ne_nil (r : Reconciliation) (m : Mismatch) : (r.add m).mismatches ≠ [] := by
  unfold add
  split
  · next h =>
    intro hn
    simp [contains, hn] at h
  · simp

theorem foldl_add_mismatches_eq_nil_iff {ms : List Mismatch} {r : Reconciliation} :
    (ms.foldl add r).mismatches = [] ↔ r.mismatches = [] ∧ ms = [] := by
  induction ms generalizing r with
  | nil => simp
  | cons m rest ih =>
    have hm := add_mismatches_ne_nil r m
    rw [List.foldl_cons, ih]
    constructor
    · rintro ⟨h, -⟩
      exact absurd h hm
    · rintro ⟨-, h⟩
      cases h

end Reconciliation

/-- Reconciliation finds nothing exactly if the tables agree. -/
theorem reconcile_mismatches_eq_nil_iff {first second : Side} :
    (reconcile first second).mismatches = [] ↔ first.table.Agree second.table := by
  unfold reconcile Reconciliation.compare
  rw [Reconciliation.foldl_add_mismatches_eq_nil_iff,
    Reconciliation.foldl_add_mismatches_eq_nil_iff, Side.mismatches_eq_nil_iff,
    Side.mismatches_eq_nil_iff, VariableTable.agree_iff]
  simp

end GalecAudit
