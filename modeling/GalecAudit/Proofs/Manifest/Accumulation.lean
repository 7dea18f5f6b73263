import GalecAudit.Proofs.Manifest.Mismatches
import Mathlib.Data.Finset.Insert

/-!
# Runs of comparisons

A reconciliation takes in any number of comparisons, one after another. What it has found stays in place,
and a difference that several comparisons show is kept as the first of them words it. The keys that are
there need no list of their own: a set of keys beside the mismatches would always be the set of theirs.
-/
namespace GalecAudit

/-- One comparison of a run: the variables of the first side are looked up on the second one. -/
structure Comparison where
  first : Side
  second : Side

namespace Comparison

/-- A comparison shows a difference: a variable of the first table is not in the second one, or has
another type or other sizes there. -/
def Exhibits (step : Comparison) (name : String) : MismatchKind → Prop
  | .missing => (step.first.table.get? name).isSome ∧ step.second.table.get? name = none
  | .type => ∃ entry ∈ step.first.table.get? name, ∃ other ∈ step.second.table.get? name,
      entry.type ≠ other.type
  | .dimension => ∃ entry ∈ step.first.table.get? name, ∃ other ∈ step.second.table.get? name,
      entry.dimensions ≠ other.dimensions

/-- A mismatch has the line and the words that a comparison gives it. -/
def Words (step : Comparison) (m : Mismatch) : Prop :=
  ∃ entry, step.first.table.get? m.name = some entry ∧
    m.IsWorded entry step.first.label step.second.label

variable {step : Comparison} {name : String} {kind : MismatchKind} {m : Mismatch}

theorem exhibits_iff_between : step.Exhibits name kind ↔
    (step.first.table.get? name).isSome ∧
      kind.Between (step.first.table.get? name) (step.second.table.get? name) := by
  unfold Exhibits MismatchKind.Between
  cases kind <;> cases step.first.table.get? name <;> cases step.second.table.get? name <;> simp

/-- What one comparison finds are the differences that it shows, in its words. -/
theorem mem_mismatches_iff :
    m ∈ step.first.mismatches step.second ↔ step.Exhibits m.name m.kind ∧ step.Words m := by
  rw [Side.mem_mismatches_iff, exhibits_iff_between, Words]
  constructor
  · rintro ⟨entry, hlisted, hkind, hm⟩
    exact ⟨⟨by rw [hlisted]; rfl, by rw [hlisted]; exact hkind⟩, entry, hlisted, hm⟩
  · rintro ⟨⟨-, hkind⟩, entry, hlisted, hm⟩
    exact ⟨entry, hlisted, hlisted ▸ hkind, hm⟩

theorem exists_mismatch_iff :
    (∃ m ∈ step.first.mismatches step.second, m.key = (name, kind)) ↔ step.Exhibits name kind := by
  rw [Side.exists_mismatch_iff, exhibits_iff_between]

end Comparison

/-- A mismatch is worded by the first comparison of a run that shows it. -/
def Mismatch.IsFirstOf (steps : List Comparison) (m : Mismatch) : Prop :=
  ∃ before step after, steps = before ++ step :: after ∧
    (∀ s ∈ before, ¬ s.Exhibits m.name m.kind) ∧ step.Exhibits m.name m.kind ∧ step.Words m

namespace Reconciliation

/-- What a reconciliation has found after a run of comparisons, from its start on. -/
def afterAll (steps : List Comparison) : Reconciliation :=
  steps.foldl (fun r step => r.compare step.first step.second) {}

theorem afterAll_concat (steps : List Comparison) (step : Comparison) :
    afterAll (steps ++ [step]) = (afterAll steps).compare step.first step.second := by
  rw [afterAll, List.foldl_append]
  rfl

/-- A reconciliation holds exactly what a run of comparisons shows: each difference once, in the words of
the first comparison that shows it. -/
structure Records (r : Reconciliation) (steps : List Comparison) : Prop where
  nodup : (r.mismatches.map Mismatch.key).Nodup
  found : ∀ name kind, (name, kind) ∈ r.mismatches.map Mismatch.key ↔
    ∃ step ∈ steps, step.Exhibits name kind
  earliest : ∀ m ∈ r.mismatches, m.IsFirstOf steps

theorem records_nil : Records {} [] where
  nodup := List.nodup_nil
  found := by simp
  earliest := nofun

section Step

variable {r : Reconciliation} {steps : List Comparison} {step : Comparison} {m : Mismatch}

theorem Records.contains_iff (h : r.Records steps) :
    r.contains m.key = true ↔ ∃ s ∈ steps, s.Exhibits m.name m.kind := by
  rw [Reconciliation.contains_iff, ← h.found, List.mem_map]
  rfl

/-- What one more comparison adds: the differences it shows that no earlier one has shown. -/
theorem Records.mem_compare_iff (h : r.Records steps) :
    m ∈ (r.compare step.first step.second).mismatches ↔ m ∈ r.mismatches ∨
      step.Exhibits m.name m.kind ∧ step.Words m ∧ ∀ s ∈ steps, ¬ s.Exhibits m.name m.kind := by
  rw [mismatches_compare, List.mem_append, List.mem_filter, Comparison.mem_mismatches_iff,
    Bool.not_eq_true', ← Bool.not_eq_true, h.contains_iff]
  simp only [not_exists, not_and, and_assoc]

theorem Records.nodup_compare (h : r.Records steps) :
    ((r.compare step.first step.second).mismatches.map Mismatch.key).Nodup := by
  rw [mismatches_compare, List.map_append, List.nodup_append]
  refine ⟨h.nodup, ?_, ?_⟩
  · have hkeys := (Side.pairwise_mismatches step.first step.second).imp Mismatch.Precedes.key_ne
    exact List.pairwise_map.2 (hkeys.filter _)
  · rintro key hkey _ hnew rfl
    obtain ⟨m, hm, rfl⟩ := List.mem_map.1 hnew
    have hcontains : r.contains m.key = true := Reconciliation.contains_iff.2 (List.mem_map.1 hkey)
    have hfresh := (List.mem_filter.1 hm).2
    rw [hcontains] at hfresh
    cases hfresh

theorem Records.found_compare (h : r.Records steps) (name : String) (kind : MismatchKind) :
    (name, kind) ∈ (r.compare step.first step.second).mismatches.map Mismatch.key ↔
      ∃ s ∈ steps ++ [step], s.Exhibits name kind := by
  have hsplit : (∃ s ∈ steps ++ [step], s.Exhibits name kind) ↔
      (∃ s ∈ steps, s.Exhibits name kind) ∨ step.Exhibits name kind := by
    simp [or_and_right, exists_or]
  rw [hsplit]
  constructor
  · intro hkey
    obtain ⟨m, hm, hk⟩ := List.mem_map.1 hkey
    obtain ⟨rfl, rfl⟩ := Prod.mk.inj hk
    rcases h.mem_compare_iff.1 hm with hold | ⟨hshown, -, -⟩
    · exact .inl ((h.found _ _).1 (List.mem_map.2 ⟨m, hold, rfl⟩))
    · exact .inr hshown
  · intro hshown
    by_cases hold : ∃ s ∈ steps, s.Exhibits name kind
    · obtain ⟨m, hm, hk⟩ := List.mem_map.1 ((h.found _ _).2 hold)
      exact List.mem_map.2 ⟨m, h.mem_compare_iff.2 (.inl hm), hk⟩
    · obtain ⟨m, hm, hk⟩ := Comparison.exists_mismatch_iff.2 (hshown.resolve_left hold)
      obtain ⟨rfl, rfl⟩ := Prod.mk.inj hk
      obtain ⟨hexhibits, hwords⟩ := Comparison.mem_mismatches_iff.1 hm
      refine List.mem_map.2 ⟨m, h.mem_compare_iff.2 (.inr ⟨hexhibits, hwords, ?_⟩), rfl⟩
      exact fun s hs hse => hold ⟨s, hs, hse⟩

/-- One comparison more. -/
theorem Records.compare (h : r.Records steps) :
    (r.compare step.first step.second).Records (steps ++ [step]) where
  nodup := h.nodup_compare
  found := h.found_compare
  earliest m hm := by
    rcases h.mem_compare_iff.1 hm with hold | ⟨hshown, hwords, hnone⟩
    · obtain ⟨before, first, after, rfl, hfirst⟩ := h.earliest m hold
      exact ⟨before, first, after ++ [step], by simp, hfirst⟩
    · exact ⟨steps, step, [], rfl, hnone, hshown, hwords⟩

/-- A comparison of which all differences have been shown adds nothing. -/
theorem Records.compare_eq_self (h : r.Records steps) (hstep : step ∈ steps) :
    r.compare step.first step.second = r := by
  have hknown : (step.first.mismatches step.second).filter (fun m => !r.contains m.key) = [] := by
    refine List.filter_eq_nil_iff.2 fun m hm => ?_
    have hshown := (Comparison.mem_mismatches_iff.1 hm).1
    rw [h.contains_iff.2 ⟨step, hstep, hshown⟩]
    decide
  have hsame : (r.compare step.first step.second).mismatches = r.mismatches := by
    rw [mismatches_compare, hknown, List.append_nil]
  exact congrArg Reconciliation.mk hsame

end Step

theorem records_afterAll (steps : List Comparison) : (afterAll steps).Records steps := by
  induction steps using List.reverseRecOn with
  | nil => exact records_nil
  | append_singleton steps step ih =>
    rw [afterAll_concat]
    exact ih.compare

end Reconciliation

/-- A reconciliation that keeps the keys it has met in a set of their own. -/
structure KeyedReconciliation where
  seen : Finset (String × MismatchKind) := ∅
  mismatches : List Mismatch := []

namespace KeyedReconciliation

/-- Keeps a mismatch unless its key has been met. -/
def add (k : KeyedReconciliation) (m : Mismatch) : KeyedReconciliation :=
  if m.key ∈ k.seen then k else ⟨insert m.key k.seen, k.mismatches ++ [m]⟩

/-- What is found after a run of comparisons. -/
def afterAll (steps : List Comparison) : KeyedReconciliation :=
  steps.foldl (fun k step => (step.first.mismatches step.second).foldl add k) {}

/-- The mismatches are those of a reconciliation, and the keys are theirs. -/
structure InStep (k : KeyedReconciliation) (r : Reconciliation) : Prop where
  mismatches : k.mismatches = r.mismatches
  seen : ∀ key, key ∈ k.seen ↔ key ∈ r.mismatches.map Mismatch.key

theorem inStep_start : InStep {} {} where
  mismatches := rfl
  seen key := by simp

variable {k : KeyedReconciliation} {r : Reconciliation}

theorem InStep.add (h : k.InStep r) (m : Mismatch) : (k.add m).InStep (r.add m) := by
  have hmet : m.key ∈ k.seen ↔ r.contains m.key = true := by
    rw [h.seen, Reconciliation.contains_iff, List.mem_map]
  unfold KeyedReconciliation.add
  by_cases hm : m.key ∈ k.seen
  · rw [if_pos hm, Reconciliation.add_of_contains (hmet.1 hm)]
    exact h
  · rw [if_neg hm, Reconciliation.add_of_not_contains (mt hmet.2 hm)]
    constructor
    · exact congrArg (· ++ [m]) h.mismatches
    · intro key
      rw [Finset.mem_insert, h.seen, List.map_append, List.mem_append, List.map_singleton,
        List.mem_singleton, or_comm]

theorem InStep.foldl_add (h : k.InStep r) (ms : List Mismatch) :
    (ms.foldl KeyedReconciliation.add k).InStep (ms.foldl Reconciliation.add r) := by
  induction ms generalizing k r with
  | nil => exact h
  | cons m ms ih => exact ih (h.add m)

theorem inStep_afterAll (steps : List Comparison) :
    (afterAll steps).InStep (Reconciliation.afterAll steps) := by
  induction steps using List.reverseRecOn with
  | nil => exact inStep_start
  | append_singleton steps step ih =>
    rw [afterAll, List.foldl_append, Reconciliation.afterAll_concat]
    exact ih.foldl_add _

end KeyedReconciliation

/-- A reconciliation accumulates without loss or repetition over every run of comparisons: it records what
they show, it extends what it had found before, an earlier comparison made again adds nothing, and a set of
keys kept beside the mismatches stays in step with them. -/
theorem Reconciliation.afterAll_accumulates (steps : List Comparison) :
    (afterAll steps).Records steps ∧
      (∀ step, (afterAll steps).mismatches <+: (afterAll (steps ++ [step])).mismatches) ∧
      (∀ step ∈ steps, afterAll (steps ++ [step]) = afterAll steps) ∧
      (KeyedReconciliation.afterAll steps).InStep (afterAll steps) := by
  have hrecords := records_afterAll steps
  refine ⟨hrecords, fun step => ?_, fun step hstep => ?_, KeyedReconciliation.inStep_afterAll steps⟩
  · rw [afterAll_concat, mismatches_compare]
    exact List.prefix_append _ _
  · rw [afterAll_concat]
    exact hrecords.compare_eq_self hstep

/-- Two comparisons with one side, of which the second shows a difference again and one of its own. -/
def repeatedDifference : List Comparison :=
  let equations : Side := ⟨"Equation Code", VariableTable.empty.insertMany
    [("u", ⟨.integer, .unspecified, 13, [], none, none⟩)]⟩
  [⟨⟨"Algorithm Code", VariableTable.empty.insertMany
      [("u", ⟨.real, .unspecified, 3, [], none, none⟩)]⟩, equations⟩,
    ⟨⟨"Binary Code", VariableTable.empty.insertMany
      [("u", ⟨.boolean, .unspecified, 7, [], none, none⟩),
        ("v", ⟨.real, .unspecified, 8, [], none, none⟩)]⟩, equations⟩]

theorem afterAll_repeatedDifference :
    (Reconciliation.afterAll repeatedDifference).mismatches =
      [⟨"u", .type, "The type of the u variable from the Algorithm Code manifest (line 3) does " ++
          "not match the type of the same variable in the Equation Code manifest", 3⟩,
        ⟨"v", .missing, "The v variable from the Binary Code manifest (line 8) is not listed in " ++
          "the Equation Code manifest", 8⟩] ∧
      (∀ m ∈ (Reconciliation.afterAll repeatedDifference).mismatches, m.IsFirstOf repeatedDifference) ∧
      Reconciliation.afterAll (repeatedDifference ++ [repeatedDifference[1]]) =
        Reconciliation.afterAll repeatedDifference := by
  obtain ⟨hrecords, -, hrepeated, -⟩ := Reconciliation.afterAll_accumulates repeatedDifference
  exact ⟨by decide +kernel, hrecords.earliest, hrepeated _ (List.getElem_mem _)⟩

end GalecAudit
