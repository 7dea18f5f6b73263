import GalecAudit.Proofs.Manifest.Reconciliation

/-!
# What reconciliation finds

The second comparison meets every variable of both tables again. Of what it finds only the variables are
new that the first table lacks, because one mismatch of each kind is kept for a variable. So the order in
which two sides are compared changes lines and messages, and never what is found.
-/
namespace GalecAudit

namespace MismatchKind

/-- What two tables list under one name differs in a kind. -/
def Between (a b : Option Entry) : MismatchKind → Prop
  | missing => a.isSome ≠ b.isSome
  | type => ∃ x ∈ a, ∃ y ∈ b, x.type ≠ y.type
  | dimension => ∃ x ∈ a, ∃ y ∈ b, x.dimensions ≠ y.dimensions

theorem between_comm {a b : Option Entry} {kind : MismatchKind} :
    kind.Between a b ↔ kind.Between b a := by
  cases kind with
  | missing => exact ne_comm
  | type | dimension =>
    constructor <;> exact fun ⟨x, hx, y, hy, hne⟩ => ⟨y, hy, x, hx, hne.symm⟩

/-- What is said of a variable that the first manifest lists on a line. -/
def sentence (name : String) (line : Nat) (first second : String) : MismatchKind → String
  | missing => "The " ++ name ++ " variable from the " ++ first ++ " manifest (line " ++
      toString line ++ ") is not listed in the " ++ second ++ " manifest"
  | type => "The type of the " ++ name ++ " variable from the " ++ first ++ " manifest (line " ++
      toString line ++ ") does not match the type of the same variable in the " ++ second ++
      " manifest"
  | dimension => "The Dimensions of the " ++ name ++ " variable from the " ++ first ++
      " manifest (line " ++ toString line ++
      ") do not match the dimensions of the same variable in the " ++ second ++ " manifest"

end MismatchKind

namespace Mismatch

/-- A mismatch points at an entry of the first side and speaks from its point of view. -/
structure IsWorded (m : Mismatch) (entry : Entry) (first second : String) : Prop where
  line : m.line = entry.line
  message : m.message = m.kind.sentence m.name entry.line first second

/-- The order of the mismatches of one side: by name, and for one name the type before the sizes. -/
def Precedes (m n : Mismatch) : Prop :=
  m.name < n.name ∨ m.name = n.name ∧ m.kind = .type ∧ n.kind = .dimension

theorem Precedes.key_ne {m n : Mismatch} (h : m.Precedes n) : m.key ≠ n.key := by
  intro hk
  obtain ⟨hname, hkind⟩ := Prod.mk.inj hk
  rcases h with hlt | ⟨-, ht, hd⟩
  · rw [hname] at hlt
    exact String.lt_irrefl _ hlt
  · rw [ht, hd] at hkind
    cases hkind

variable {name first second : String} {entry : Entry} {other : Option Entry} {m : Mismatch}

/-- A mismatch is determined by its variable, its kind and the entry that it points at. -/
theorem eq_mk_iff {kind : MismatchKind} :
    m = ⟨name, kind, kind.sentence name entry.line first second, entry.line⟩ ↔
      m.name = name ∧ m.kind = kind ∧ m.IsWorded entry first second := by
  constructor
  · rintro rfl
    exact ⟨rfl, rfl, rfl, rfl⟩
  · obtain ⟨_, _, _, _⟩ := m
    rintro ⟨rfl, rfl, hline, hmessage⟩
    rw [Mismatch.mk.injEq]
    exact ⟨rfl, rfl, hmessage, hline⟩

/-- An entry gives rise to the mismatches of the kinds in which it differs from the other one. -/
theorem mem_ofEntry_iff : m ∈ ofEntry first second name entry other ↔
    m.name = name ∧ m.kind.Between (some entry) other ∧ m.IsWorded entry first second := by
  have hmissing : m = ofMissing name entry first second ↔
      m.name = name ∧ m.kind = .missing ∧ m.IsWorded entry first second := eq_mk_iff
  have htype : m = ofType name entry first second ↔
      m.name = name ∧ m.kind = .type ∧ m.IsWorded entry first second := eq_mk_iff
  have hdimension : m = ofDimension name entry first second ↔
      m.name = name ∧ m.kind = .dimension ∧ m.IsWorded entry first second := eq_mk_iff
  cases other with
  | none =>
    rw [ofEntry, List.mem_singleton, hmissing]
    cases m.kind <;> simp [MismatchKind.Between]
  | some other =>
    rw [ofEntry, List.mem_append, List.mem_ite_nil_left, List.mem_ite_nil_left, List.mem_singleton,
      List.mem_singleton, htype, hdimension]
    cases m.kind <;> simp [MismatchKind.Between, and_left_comm]

theorem pairwise_ofEntry : (ofEntry first second name entry other).Pairwise Precedes := by
  cases other with
  | none => exact List.pairwise_singleton _ _
  | some other =>
    by_cases ht : entry.type = other.type <;> by_cases hd : entry.dimensions = other.dimensions <;>
      simp [ofEntry, Precedes, ofType, ofDimension, ht, hd]

end Mismatch

section Sides

variable {first second : Side} {m : Mismatch}

/-- One direction finds, for each variable of the first side, the kinds in which it differs. -/
theorem Side.mem_mismatches_iff :
    m ∈ first.mismatches second ↔ ∃ entry, first.table.get? m.name = some entry ∧
      m.kind.Between (some entry) (second.table.get? m.name) ∧
      m.IsWorded entry first.label second.label := by
  unfold Side.mismatches
  rw [List.mem_flatMap]
  constructor
  · rintro ⟨⟨name, entry⟩, hlisted, hm⟩
    obtain ⟨rfl, hkind, hworded⟩ := Mismatch.mem_ofEntry_iff.1 hm
    exact ⟨entry, VariableTable.mem_toList_iff.1 hlisted, hkind, hworded⟩
  · rintro ⟨entry, hlisted, hkind, hworded⟩
    refine ⟨(m.name, entry), VariableTable.mem_toList_iff.2 hlisted, ?_⟩
    exact Mismatch.mem_ofEntry_iff.2 ⟨rfl, hkind, hworded⟩

theorem Side.pairwise_mismatches (first second : Side) :
    (first.mismatches second).Pairwise Mismatch.Precedes := by
  unfold Side.mismatches
  rw [List.pairwise_flatMap]
  constructor
  · intro p _
    exact Mismatch.pairwise_ofEntry
  · refine first.table.pairwise_toList.imp fun {p q} hlt m hm n hn => .inl ?_
    obtain ⟨hmname, -⟩ := Mismatch.mem_ofEntry_iff.1 hm
    obtain ⟨hnname, -⟩ := Mismatch.mem_ofEntry_iff.1 hn
    rw [hmname, hnname]
    exact hlt

theorem Side.exists_mismatch_iff {name : String} {kind : MismatchKind} :
    (∃ m ∈ first.mismatches second, m.key = (name, kind)) ↔
      (first.table.get? name).isSome ∧
        kind.Between (first.table.get? name) (second.table.get? name) := by
  constructor
  · rintro ⟨m, hm, hk⟩
    obtain ⟨entry, hlisted, hkind, -⟩ := mem_mismatches_iff.1 hm
    obtain ⟨rfl, rfl⟩ := Prod.mk.inj hk
    rw [hlisted]
    exact ⟨rfl, hkind⟩
  · rintro ⟨hsome, hkind⟩
    obtain ⟨entry, hlisted⟩ := Option.isSome_iff_exists.1 hsome
    refine ⟨⟨name, kind, kind.sentence name entry.line first.label second.label, entry.line⟩, ?_, rfl⟩
    exact mem_mismatches_iff.2 ⟨entry, hlisted, hlisted ▸ hkind, rfl, rfl⟩

end Sides

namespace Reconciliation

theorem contains_iff {r : Reconciliation} {key : String × MismatchKind} :
    r.contains key = true ↔ ∃ m ∈ r.mismatches, m.key = key := by
  simp [contains]

theorem add_of_contains {r : Reconciliation} {m : Mismatch} (h : r.contains m.key = true) :
    r.add m = r := if_pos h

theorem add_of_not_contains {r : Reconciliation} {m : Mismatch} (h : ¬ r.contains m.key = true) :
    r.add m = ⟨r.mismatches ++ [m]⟩ := if_neg h

/-- Whether a key is there changes only where it is the key that is added. -/
theorem contains_add_of_ne {r : Reconciliation} {m : Mismatch} {key : String × MismatchKind}
    (hne : m.key ≠ key) : (r.add m).contains key = r.contains key := by
  by_cases hc : r.contains m.key = true
  · rw [add_of_contains hc]
  · rw [add_of_not_contains hc]
    simp [contains, hne]

/-- Mismatches with different keys are added as far as their keys are new. -/
theorem mismatches_foldl_add (r : Reconciliation) {ms : List Mismatch}
    (h : ms.Pairwise fun m n => m.key ≠ n.key) :
    (ms.foldl add r).mismatches = r.mismatches ++ ms.filter fun m => !r.contains m.key := by
  induction ms generalizing r with
  | nil => simp
  | cons m ms ih =>
    obtain ⟨hm, hms⟩ := List.pairwise_cons.1 h
    have hfilter : ms.filter (fun n => !(r.add m).contains n.key) =
        ms.filter fun n => !r.contains n.key :=
      List.filter_congr fun n hn => by rw [contains_add_of_ne (hm n hn)]
    rw [List.foldl_cons, ih _ hms, hfilter, List.filter_cons]
    by_cases hc : r.contains m.key = true
    · rw [add_of_contains hc, hc]
      rfl
    · have hnew : r.contains m.key = false := Bool.eq_false_iff.2 hc
      rw [add_of_not_contains hc, hnew]
      exact List.append_assoc _ _ _

/-- A comparison appends what it finds, without what is there. -/
theorem mismatches_compare (r : Reconciliation) (first second : Side) :
    (r.compare first second).mismatches =
      r.mismatches ++ (first.mismatches second).filter fun m => !r.contains m.key :=
  mismatches_foldl_add r ((Side.pairwise_mismatches first second).imp Mismatch.Precedes.key_ne)

end Reconciliation

/-- The second comparison adds the variables that the first table lacks. -/
theorem mismatches_reconcile (first second : Side) :
    (reconcile first second).mismatches = first.mismatches second ++
      (second.mismatches first).filter fun m => (first.table.get? m.name).isNone := by
  have hstart : (Reconciliation.compare {} first second).mismatches = first.mismatches second := by
    rw [Reconciliation.mismatches_compare]
    simp [Reconciliation.contains]
  rw [reconcile, Reconciliation.mismatches_compare, hstart]
  refine congrArg (first.mismatches second ++ ·) (List.filter_congr fun m hm => ?_)
  obtain ⟨entry, hlisted, hkind, -⟩ := Side.mem_mismatches_iff.1 hm
  rw [Bool.eq_iff_iff, Bool.not_eq_true', ← Bool.not_eq_true, Reconciliation.contains_iff, hstart,
    Mismatch.key, Side.exists_mismatch_iff, hlisted, ← MismatchKind.between_comm]
  simp [hkind]

/-- The mismatch that is kept under a key, with the line and the label of the first side for the variables
of the first table. -/
def Mismatch.IsOf (first second : Side) (m : Mismatch) : Prop :=
  match first.table.get? m.name with
  | some entry => m.IsWorded entry first.label second.label
  | none => ∃ entry, second.table.get? m.name = some entry ∧
      m.IsWorded entry second.label first.label

/-- The order of all mismatches: those of variables of the first table stand first, and on each side they
are in order. -/
def Mismatch.Before (table : VariableTable) (m n : Mismatch) : Prop :=
  match table.contains m.name, table.contains n.name with
  | true, false => True
  | false, true => False
  | _, _ => m.Precedes n

/-- Two sides are reconciled: what is found, in which order and from whose point of view. -/
structure Reconciliation.IsExact (first second : Side) (r : Reconciliation) : Prop where
  nodup : (r.mismatches.map Mismatch.key).Nodup
  found : ∀ name kind, (name, kind) ∈ r.mismatches.map Mismatch.key ↔
    kind.Between (first.table.get? name) (second.table.get? name)
  ordered : r.mismatches.Pairwise (Mismatch.Before first.table)
  sided : ∀ m ∈ r.mismatches, m.IsOf first second

section Exact

variable {first second : Side} {m n : Mismatch}

theorem mem_mismatches_reconcile_iff :
    m ∈ (reconcile first second).mismatches ↔ m ∈ first.mismatches second ∨
      m ∈ second.mismatches first ∧ first.table.get? m.name = none := by
  rw [mismatches_reconcile, List.mem_append, List.mem_filter, Option.isNone_iff_eq_none]

theorem mem_keys_reconcile_iff {name : String} {kind : MismatchKind} :
    (name, kind) ∈ (reconcile first second).mismatches.map Mismatch.key ↔
      kind.Between (first.table.get? name) (second.table.get? name) := by
  rw [List.mem_map]
  constructor
  · rintro ⟨m, hm, hk⟩
    rcases mem_mismatches_reconcile_iff.1 hm with hm | ⟨hm, -⟩
    · exact (Side.exists_mismatch_iff.1 ⟨m, hm, hk⟩).2
    · exact MismatchKind.between_comm.1 (Side.exists_mismatch_iff.1 ⟨m, hm, hk⟩).2
  · intro hkind
    cases hlisted : first.table.get? name with
    | some entry =>
      obtain ⟨m, hm, hk⟩ := Side.exists_mismatch_iff.2 ⟨hlisted ▸ rfl, hkind⟩
      exact ⟨m, mem_mismatches_reconcile_iff.2 (.inl hm), hk⟩
    | none =>
      -- a name that the first table lacks differs from nothing unless the second one lists it
      have hsome : (second.table.get? name).isSome = true := by
        rw [hlisted] at hkind
        cases hother : second.table.get? name with
        | some other => rfl
        | none =>
          rw [hother] at hkind
          cases kind <;> simp [MismatchKind.Between] at hkind
      obtain ⟨m, hm, hk⟩ := Side.exists_mismatch_iff.2 ⟨hsome, MismatchKind.between_comm.1 hkind⟩
      have hname : m.name = name := congrArg Prod.fst hk
      exact ⟨m, mem_mismatches_reconcile_iff.2 (.inr ⟨hm, hname ▸ hlisted⟩), hk⟩

theorem Mismatch.Before.key_ne {table : VariableTable} (h : m.Before table n) : m.key ≠ n.key := by
  intro hk
  have hname : m.name = n.name := congrArg Prod.fst hk
  unfold Before at h
  rw [hname] at h
  split at h
  · next ht hf => rw [ht] at hf; cases hf
  · exact h
  · exact h.key_ne hk

theorem Mismatch.Precedes.before {table : VariableTable} (h : m.Precedes n)
    (hsame : table.contains m.name = table.contains n.name) : m.Before table n := by
  unfold Before
  rw [hsame]
  cases table.contains n.name <;> exact h

theorem pairwise_reconcile (first second : Side) :
    (reconcile first second).mismatches.Pairwise (Mismatch.Before first.table) := by
  have hfirst : ∀ m ∈ first.mismatches second, first.table.contains m.name = true := by
    intro m hm
    obtain ⟨entry, hlisted, -⟩ := Side.mem_mismatches_iff.1 hm
    exact VariableTable.contains_iff.2 ⟨entry, hlisted⟩
  have hsecond : ∀ m ∈ (second.mismatches first).filter fun m => (first.table.get? m.name).isNone,
      first.table.contains m.name = false := by
    intro m hm
    have hnone := Option.isNone_iff_eq_none.1 (List.mem_filter.1 hm).2
    rw [Bool.eq_false_iff, Ne, VariableTable.contains_iff, hnone]
    simp
  rw [mismatches_reconcile, List.pairwise_append]
  refine ⟨?_, ?_, ?_⟩
  · refine (Side.pairwise_mismatches first second).imp_of_mem fun hm hn h => h.before ?_
    rw [hfirst _ hm, hfirst _ hn]
  · refine ((Side.pairwise_mismatches second first).filter _).imp_of_mem fun hm hn h => h.before ?_
    rw [hsecond _ hm, hsecond _ hn]
  · intro m hm n hn
    unfold Mismatch.Before
    rw [hfirst m hm, hsecond n hn]
    trivial

theorem isOf_of_mem_reconcile (hm : m ∈ (reconcile first second).mismatches) :
    m.IsOf first second := by
  unfold Mismatch.IsOf
  rcases mem_mismatches_reconcile_iff.1 hm with hm | ⟨hm, hnone⟩
  · obtain ⟨entry, hlisted, -, hworded⟩ := Side.mem_mismatches_iff.1 hm
    rw [hlisted]
    exact hworded
  · obtain ⟨entry, hlisted, -, hworded⟩ := Side.mem_mismatches_iff.1 hm
    rw [hnone]
    exact ⟨entry, hlisted, hworded⟩

end Exact

/-- Reconciliation is exact, and symmetric in what it finds: the sides may be exchanged, and nothing is
found exactly if the tables agree. -/
theorem reconcile_isExact (first second : Side) :
    (reconcile first second).IsExact first second ∧
      (∀ key, key ∈ (reconcile second first).mismatches.map Mismatch.key ↔
        key ∈ (reconcile first second).mismatches.map Mismatch.key) ∧
      ((reconcile first second).mismatches = [] ↔ first.table.Agree second.table) := by
  have hordered := pairwise_reconcile first second
  have hnodup : ((reconcile first second).mismatches.map Mismatch.key).Nodup :=
    List.pairwise_map.2 (hordered.imp Mismatch.Before.key_ne)
  refine ⟨⟨hnodup, fun _ _ => mem_keys_reconcile_iff, hordered, fun _ => isOf_of_mem_reconcile⟩,
    ?_, reconcile_mismatches_eq_nil_iff⟩
  rintro ⟨name, kind⟩
  rw [mem_keys_reconcile_iff, mem_keys_reconcile_iff]
  exact MismatchKind.between_comm

/-- Two sides with a variable of other type and sizes, one that agrees, and one more on either side. -/
def differingSides : Side × Side :=
  (⟨"Algorithm Code", VariableTable.empty.insertMany
      [("u", ⟨.real, .unspecified, 3, [2], none, none⟩),
        ("v", ⟨.integer, .unspecified, 4, [], none, none⟩),
        ("w", ⟨.boolean, .unspecified, 5, [], none, none⟩)]⟩,
    ⟨"Equation Code", VariableTable.empty.insertMany
      [("a", ⟨.real, .unspecified, 12, [], none, none⟩),
        ("u", ⟨.integer, .unspecified, 13, [3], none, none⟩),
        ("w", ⟨.boolean, .unspecified, 14, [], none, none⟩)]⟩)

theorem reconcile_differingSides :
    (reconcile differingSides.1 differingSides.2).mismatches =
      [⟨"u", .type, "The type of the u variable from the Algorithm Code manifest (line 3) does " ++
          "not match the type of the same variable in the Equation Code manifest", 3⟩,
        ⟨"u", .dimension, "The Dimensions of the u variable from the Algorithm Code manifest " ++
          "(line 3) do not match the dimensions of the same variable in the Equation Code manifest", 3⟩,
        ⟨"v", .missing, "The v variable from the Algorithm Code manifest (line 4) is not listed in " ++
          "the Equation Code manifest", 4⟩,
        ⟨"a", .missing, "The a variable from the Equation Code manifest (line 12) is not listed in " ++
          "the Algorithm Code manifest", 12⟩] ∧
      ("a", .missing) ∈ (reconcile differingSides.2 differingSides.1).mismatches.map Mismatch.key ∧
      ¬ differingSides.1.table.Agree differingSides.2.table := by
  obtain ⟨-, hsymmetric, hempty⟩ := reconcile_isExact differingSides.1 differingSides.2
  refine ⟨by decide +kernel, (hsymmetric _).2 (by decide +kernel), fun hagree => ?_⟩
  exact absurd (hempty.2 hagree) (by decide +kernel)

end GalecAudit
