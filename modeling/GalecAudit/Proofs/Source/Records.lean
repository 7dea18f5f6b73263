import GalecAudit.Proofs.Source.Descent
import GalecAudit.Proofs.Source.Tables
import GalecAudit.Proofs.Variable.Lookup
import Mathlib.Data.List.Perm.Subperm

/-!
# Records in tables

A variable of a record type enters the primitive fields that the ways down from it reach. Where the
fields of a record have distinct names that are identifiers, no two ways lead to one name, so the table
has one entry for each way and the elements of these.
-/
namespace GalecAudit

/-- Records with distinct names, and in each of them fields whose names are distinct identifiers. -/
structure WellNamed (rs : List RecordType) : Prop where
  records : (rs.map RecordType.name).Nodup
  fields : ∀ r ∈ rs, (r.fields.map Declaration.name).Nodup
  identifiers : ∀ r ∈ rs, ∀ field ∈ r.fields, Grammar.IsIdentifier field.name

section Names

variable {names others : List String}

theorem intercalate_dot_inj (hn : names ≠ []) (ho : others ≠ [])
    (hnames : ∀ x ∈ names, Grammar.IsIdentifier x) (hothers : ∀ x ∈ others, Grammar.IsIdentifier x)
    (h : ".".intercalate names = ".".intercalate others) : names = others := by
  have hfree {xs : List String} (hxs : ∀ x ∈ xs, Grammar.IsIdentifier x) :
      ∀ l ∈ xs.map String.toList, '.' ∉ l := by
    intro l hl hm
    obtain ⟨x, hx, rfl⟩ := List.mem_map.1 hl
    exact absurd ((hxs x hx).2 _ hm) (by decide)
  have hl := congrArg String.toList h
  rw [String.toList_intercalate, String.toList_intercalate] at hl
  have hs := congrArg (List.splitOn '.') hl
  rw [show ".".toList = ['.'] from rfl, List.splitOn_intercalate '.' (hfree hnames) (by simpa using hn),
    List.splitOn_intercalate '.' (hfree hothers) (by simpa using ho)] at hs
  exact (List.map_inj_right fun _ _ => String.toList_inj.1).1 hs

theorem IsPlain.append_identifier {x : String} (hx : Grammar.IsIdentifier x) (front : String) :
    IsPlain (front ++ x) := by
  have hne : x.toList ≠ [] := by
    intro he
    have hfirst := hx.1
    rw [he] at hfirst
    cases hfirst
  unfold IsPlain
  rw [String.toList_append, List.getLast?_append_of_ne_nil _ hne]
  exact (IsUnindexed.of_isIdentifier hx).isPlain

end Names

section Descents

variable {records : List RecordType} {opened : List String} {first key : String}
  {steps others : List Step}

theorem IsDescent.ne_nil (h : IsDescent records opened first steps) : steps ≠ [] := by
  rintro rfl
  cases h.starts

theorem IsDescent.opened_subset (h : IsDescent records opened first steps) :
    steps.map (·.record.name) ⊆ records.map RecordType.name := by
  intro name hname
  obtain ⟨s, hs, rfl⟩ := List.mem_map.1 hname
  exact List.mem_map_of_mem (h.declared s hs).1

/-- A way down opens each record once at most, so it has no more steps than there are records. -/
theorem IsDescent.length_le (h : IsDescent records opened first steps) :
    steps.length ≤ records.length := by
  have hle := (List.subperm_of_subset h.distinct h.opened_subset).length_le
  rwa [List.length_map, List.length_map] at hle

variable (hw : WellNamed records)
include hw

theorem IsDescent.isIdentifier (h : IsDescent records opened first steps) :
    ∀ x ∈ steps.map (·.field.name), Grammar.IsIdentifier x := by
  intro x hx
  obtain ⟨s, hs, rfl⟩ := List.mem_map.1 hx
  obtain ⟨hr, hf⟩ := h.declared s hs
  exact hw.identifiers s.record hr s.field hf

theorem IsDescent.isPlain_pathName (h : IsDescent records opened first steps) :
    IsPlain (pathName key steps) := by
  have hid := h.isIdentifier hw
  cases steps with
  | nil => exact absurd rfl h.ne_nil
  | cons s rest =>
    clear h
    induction rest generalizing key s with
    | nil => exact .append_identifier (hid _ List.mem_cons_self) (key ++ ".")
    | cons t rest ih =>
      rw [pathName_cons]
      exact ih t fun x hx => hid x (List.mem_cons_of_mem _ hx)

/-- Ways down from one record are the same if they take fields of the same names. -/
theorem IsDescent.eq_of_fieldNames (h : IsDescent records opened first steps)
    (h' : IsDescent records opened first others)
    (hn : steps.map (·.field.name) = others.map (·.field.name)) : steps = others := by
  induction steps generalizing opened first others with
  | nil => exact absurd rfl h.ne_nil
  | cons s rest ih =>
    cases others with
    | nil => cases hn
    | cons t others =>
      obtain ⟨hname, hrest⟩ := List.cons.inj hn
      obtain ⟨⟨hs, hfirst, hsf⟩, -, hnext⟩ := isDescent_cons_iff.1 h
      obtain ⟨⟨ht, hfirst', htf⟩, -, hnext'⟩ := isDescent_cons_iff.1 h'
      have hr : s.record = t.record :=
        List.inj_on_of_nodup_map hw.records hs ht (hfirst.trans hfirst'.symm)
      have hf : s.field = t.field :=
        List.inj_on_of_nodup_map (hw.fields _ hs) hsf (hr ▸ htf) hname
      have hst : s = t := by
        cases s
        cases t
        cases hr
        cases hf
        rfl
      subst hst
      rcases hnext with rfl | ⟨next, hlink, hd⟩
      · rw [List.map_nil, eq_comm, List.map_eq_nil_iff] at hrest
        rw [hrest]
      · rcases hnext' with rfl | ⟨next', hlink', hd'⟩
        · rw [List.map_nil, List.map_eq_nil_iff] at hrest
          rw [hrest]
        · obtain rfl := DeclaredType.record.inj (hlink.symm.trans hlink')
          rw [ih hd hd' hrest]

/-- No two ways down lead to fields of one name. -/
theorem IsDescent.eq_of_pathName (h : IsDescent records opened first steps)
    (h' : IsDescent records opened first others)
    (hn : pathName key steps = pathName key others) : steps = others := by
  have hdot {ss : List Step} (hss : ss ≠ []) :
      pathName key ss = key ++ "." ++ ".".intercalate (ss.map (·.field.name)) := by
    cases ss with
    | nil => exact absurd rfl hss
    | cons s rest => exact String.intercalate_cons_cons
  rw [hdot h.ne_nil, hdot h'.ne_nil, String.append_right_inj] at hn
  refine h.eq_of_fieldNames hw h' (intercalate_dot_inj ?_ ?_ (h.isIdentifier hw) (h'.isIdentifier hw) hn)
  · simpa using h.ne_nil
  · simpa using h'.ne_nil

end Descents

namespace Declaration

section Own

variable {records : List RecordType} {opened : List String} {key name : String}
  {causality : Causality} {d : Declaration} {entry : Entry}

theorem ownLeaf?_eq_entry_iff : d.ownLeaf? records opened key causality = some (.entry name entry) ↔
    ∃ type, d.type = .primitive type ∧ key = name ∧ d.entry type causality = entry := by
  cases ht : d.type with
  | primitive type => simp [ownLeaf?_of_primitive ht]
  | record other =>
    rw [ownLeaf?_of_record ht]
    split
    · simp
    · split <;> simp

/-- A warning stands where a record is open already. -/
theorem ownLeaf?_eq_unsupported_iff :
    (∃ i, d.ownLeaf? records opened key causality = some (.issue i) ∧
        i.code = .unsupportedConstruct) ↔
      ∃ name, d.type = .record name ∧ name ∈ opened := by
  cases ht : d.type with
  | primitive type => simp [ownLeaf?_of_primitive ht]
  | record other =>
    rw [ownLeaf?_of_record ht]
    split
    · next ho => simp [ho, selfContainedIssue, Diagnostic.warningAt]
    · next ho => split <;> simp [ho, unknownRecordIssue, Diagnostic.errorAt]

/-- An error stands where a record is neither open nor declared. -/
theorem ownLeaf?_eq_undeclared_iff :
    (∃ i, d.ownLeaf? records opened key causality = some (.issue i) ∧
        i.code = .undeclaredVariable) ↔
      ∃ name, d.type = .record name ∧ name ∉ opened ∧ name ∉ records.map RecordType.name := by
  cases ht : d.type with
  | primitive type => simp [ownLeaf?_of_primitive ht]
  | record other =>
    rw [ownLeaf?_of_record ht]
    split
    · next ho => simp [ho, selfContainedIssue, Diagnostic.warningAt]
    · next ho => split <;> simp_all [unknownRecordIssue, Diagnostic.errorAt]

end Own

end Declaration

namespace VariableTable

variable {table : VariableTable} {leaves : List Leaf} {d : Diagnostic}

theorem mem_snd_enter_of_mem (h : .issue d ∈ leaves) : d ∈ (table.enter leaves).2 := by
  induction leaves generalizing table with
  | nil => cases h
  | cons leaf rest ih =>
    cases leaf with
    | issue other =>
      show d ∈ other :: (table.enter rest).2
      rcases List.mem_cons.1 h with he | h
      · cases he
        exact List.mem_cons_self
      · exact List.mem_cons_of_mem _ (ih h)
    | entry key entry =>
      have h : .issue d ∈ rest := (List.mem_cons.1 h).resolve_left nofun
      have hr : d ∈ ((table.declare .element key entry).enter rest).2 := ih h
      rw [enter]
      cases table.get? key with
      | none => exact hr
      | some previous => exact List.mem_cons_of_mem _ hr

/-- The table itself adds nothing but warnings about repeated declarations. -/
theorem mem_of_mem_snd_enter (h : d ∈ (table.enter leaves).2) :
    .issue d ∈ leaves ∨ d.code = .duplicateDeclaration := by
  induction leaves generalizing table with
  | nil => cases h
  | cons leaf rest ih =>
    cases leaf with
    | issue other =>
      replace h : d ∈ other :: (table.enter rest).2 := h
      rcases List.mem_cons.1 h with rfl | h
      · exact .inl List.mem_cons_self
      · exact (ih h).imp_left (List.mem_cons_of_mem _)
    | entry key entry =>
      rw [enter] at h
      cases hg : table.get? key with
      | none =>
        rw [hg] at h
        exact (ih h).imp_left (List.mem_cons_of_mem _)
      | some previous =>
        rw [hg] at h
        rcases List.mem_cons.1 h with rfl | h
        · exact .inr rfl
        · exact (ih h).imp_left (List.mem_cons_of_mem _)

/-- The issues of any other code are those of the leaves. -/
theorem exists_mem_snd_enter_iff {code : Code} (hc : code ≠ .duplicateDeclaration) :
    (∃ d ∈ (table.enter leaves).2, d.code = code) ↔ ∃ d, .issue d ∈ leaves ∧ d.code = code := by
  constructor
  · rintro ⟨d, hd, rfl⟩
    exact ⟨d, (mem_of_mem_snd_enter hd).resolve_right hc, rfl⟩
  · rintro ⟨d, hd, hcode⟩
    exact ⟨d, mem_snd_enter_of_mem hd, hcode⟩

end VariableTable

section Fields

variable {records : List RecordType} {v : Declaration} {first key : String} {entry : Entry}

/-- The primitive fields below a variable, as a table knows them. -/
def FieldEntry (records : List RecordType) (first name : String) (p : String × Entry) : Prop :=
  ∃ steps field type, LeadsTo records first steps field ∧ field.type = .primitive type ∧
    p = (pathName name steps, field.entry type .state)

theorem Declaration.mem_named_iff (hr : (records.map RecordType.name).Nodup)
    (hv : v.type = .record first) :
    (key, entry) ∈ v.named records ↔ FieldEntry records first v.name (key, entry) := by
  have hleaf : (key, entry) ∈ v.named records ↔
      .entry key entry ∈ v.leaves records [] v.name v.causality := by
    rw [Declaration.named, List.mem_filterMap]
    constructor
    · rintro ⟨leaf, hm, hl⟩
      cases leaf with
      | entry name own =>
        cases hl
        exact hm
      | issue d => cases hl
    · exact fun hm => ⟨_, hm, rfl⟩
  rw [hleaf, Declaration.mem_leaves_iff_of_record hr hv]
  simp only [reduceCtorEq, and_false, false_or, Declaration.ownLeaf?_eq_entry_iff]
  constructor
  · rintro ⟨steps, field, hl, type, ht, rfl, rfl⟩
    exact ⟨steps, field, type, hl, ht, rfl⟩
  · rintro ⟨steps, field, type, hl, ht, he⟩
    cases he
    exact ⟨steps, field, hl, type, ht, rfl, rfl⟩

/-- The issues of a variable of a record type are about itself or about the fields below it. -/
theorem exists_mem_issues_iff (hr : (records.map RecordType.name).Nodup)
    (hv : v.type = .record first) {code : Code} (hc : code ≠ .duplicateDeclaration) :
    (∃ i ∈ (VariableTable.empty.declareAll records v).2, i.code = code) ↔
      (first ∉ records.map RecordType.name ∧ code = .undeclaredVariable) ∨
      ∃ steps field, LeadsTo records first steps field ∧
        ∃ i, field.ownLeaf? records (steps.map (·.record.name)) (pathName v.name steps) .state =
          some (.issue i) ∧ i.code = code := by
  rw [VariableTable.declareAll, VariableTable.exists_mem_snd_enter_iff hc]
  simp only [Declaration.mem_leaves_iff_of_record hr hv]
  constructor
  · rintro ⟨i, ⟨hf, he⟩ | ⟨steps, field, hl, ho⟩, rfl⟩
    · cases he
      exact .inl ⟨hf, rfl⟩
    · exact .inr ⟨steps, field, hl, i, ho, rfl⟩
  · rintro (⟨hf, rfl⟩ | ⟨steps, field, hl, i, ho, rfl⟩)
    · exact ⟨_, .inl ⟨hf, rfl⟩, rfl⟩
    · exact ⟨i, .inr ⟨steps, field, hl, ho⟩, rfl⟩

variable (hw : WellNamed records)
include hw

theorem FieldEntry.isPlain {p : String × Entry} (h : FieldEntry records first key p) :
    IsPlain p.1 := by
  obtain ⟨steps, field, type, hl, -, rfl⟩ := h
  exact hl.1.isPlain_pathName hw

/-- A name has one entry below a variable, as one way leads to it. -/
theorem FieldEntry.unique {name : String} {other : Entry}
    (h : FieldEntry records first key (name, entry))
    (h' : FieldEntry records first key (name, other)) : entry = other := by
  obtain ⟨steps, field, type, ⟨hd, hlast⟩, ht, he⟩ := h
  obtain ⟨steps', field', type', ⟨hd', hlast'⟩, ht', he'⟩ := h'
  obtain ⟨hname, rfl⟩ := Prod.mk.inj he
  obtain ⟨hname', rfl⟩ := Prod.mk.inj he'
  obtain rfl := hd.eq_of_pathName hw hd' (hname.symm.trans hname')
  obtain rfl := Option.some.inj (hlast.symm.trans hlast')
  obtain rfl := DeclaredType.primitive.inj (ht.symm.trans ht')
  rfl

/-- The table of a variable of a record type has the fields below it and the listed elements of these. -/
theorem get?_declareAll_of_record (hv : v.type = .record first) :
    (VariableTable.empty.declareAll records v).1.get? key = some entry ↔
      ∃ name own, FieldEntry records first v.name (name, own) ∧
        (key, entry) ∈ expand (name, own) := by
  have hmem {name : String} {own : Entry} : (name, own) ∈ v.named records ↔ _ :=
    Declaration.mem_named_iff hw.records hv
  have htable : (VariableTable.empty.declareAll records v).1 =
      VariableTable.ofVariables (v.named records) :=
    VariableTable.fst_declareAll _ _ _
  rw [htable, get?_ofVariables_iff_mem_expand, List.mem_flatMap]
  · simp only [Prod.exists, hmem]
  · rintro ⟨name, own⟩ hm
    exact (hmem.1 hm).isPlain hw
  · intro name own other hm hm'
    exact (hmem.1 hm).unique hw (hmem.1 hm')

end Fields

/-- A variable of a record type is expanded exactly. The table has an entry for each way down from the
record over declared records, none of which is opened twice, to a primitive field, and the elements that
are listed of the sizes of that field. A warning says that a way comes back to a record that is open on it,
and an error that the variable or a field names a record that is not declared. Every way has at most as
many steps as there are records, so the expansion ends. -/
theorem VariableTable.declareAll_record_exact {records : List RecordType} (hw : WellNamed records)
    {v : Declaration} {first : String} (hv : v.type = .record first) :
    let table := (empty.declareAll records v).1
    let issues := (empty.declareAll records v).2
    (∀ key entry, (key, entry) ∈ table.declared ↔ ∃ steps field type,
      LeadsTo records first steps field ∧ field.type = .primitive type ∧
        key = pathName v.name steps ∧ entry = field.entry type .state) ∧
    (∀ key entry, table.get? key = some entry ∧ entry.isElement = true ↔ ∃ steps field type index,
      LeadsTo records first steps field ∧ field.type = .primitive type ∧
        (key, index) ∈ elementKeys (pathName v.name steps) (field.entry type .state).dimensions ∧
        entry = (field.entry type .state).atIndex index) ∧
    ((∃ i ∈ issues, i.code = .unsupportedConstruct) ↔ ∃ steps field name,
      LeadsTo records first steps field ∧ field.type = .record name ∧
        name ∈ steps.map (·.record.name)) ∧
    ((∃ i ∈ issues, i.code = .undeclaredVariable) ↔
      first ∉ records.map RecordType.name ∨ ∃ steps field name,
        LeadsTo records first steps field ∧ field.type = .record name ∧
          name ∉ records.map RecordType.name) ∧
    ∀ steps field, LeadsTo records first steps field → steps.length ≤ records.length := by
  intro table issues
  refine ⟨fun key entry => ?_, fun key entry => ?_, ?_, ?_, fun steps field h => h.1.length_le⟩
  · have hlist : (key, entry) ∈ table.declared ↔
        table.get? key = some entry ∧ entry.isElement = false := by
      rw [declared, List.mem_filter, mem_toList_iff, Bool.not_eq_true']
    rw [hlist, get?_declareAll_of_record hw hv]
    constructor
    · rintro ⟨⟨name, own, ⟨steps, field, type, hl, ht, he⟩, hx⟩, hentry⟩
      cases he
      obtain ⟨rfl, rfl⟩ := (mem_expand_and_not_isElement rfl).1 ⟨hx, hentry⟩
      exact ⟨steps, field, type, hl, ht, rfl, rfl⟩
    · rintro ⟨steps, field, type, hl, ht, rfl, rfl⟩
      exact ⟨⟨_, _, ⟨steps, field, type, hl, ht, rfl⟩, mem_expand.2 (.inl ⟨rfl, rfl⟩)⟩, rfl⟩
  · rw [get?_declareAll_of_record hw hv]
    constructor
    · rintro ⟨⟨name, own, ⟨steps, field, type, hl, ht, he⟩, hx⟩, hentry⟩
      cases he
      obtain ⟨index, hi, he⟩ := (mem_expand_and_isElement rfl).1 ⟨hx, hentry⟩
      exact ⟨steps, field, type, index, hl, ht, hi, he⟩
    · rintro ⟨steps, field, type, index, hl, ht, hi, he⟩
      obtain ⟨hx, hentry⟩ := (mem_expand_and_isElement rfl).2 ⟨index, hi, he⟩
      exact ⟨⟨_, _, ⟨steps, field, type, hl, ht, rfl⟩, hx⟩, hentry⟩
  · rw [exists_mem_issues_iff hw.records hv (by decide)]
    simp only [reduceCtorEq, and_false, false_or, Declaration.ownLeaf?_eq_unsupported_iff]
    constructor
    · rintro ⟨steps, field, hl, name, ht, ho⟩
      exact ⟨steps, field, name, hl, ht, ho⟩
    · rintro ⟨steps, field, name, hl, ht, ho⟩
      exact ⟨steps, field, hl, name, ht, ho⟩
  · rw [exists_mem_issues_iff hw.records hv (by decide), and_iff_left rfl]
    simp only [Declaration.ownLeaf?_eq_undeclared_iff]
    apply or_congr_right
    constructor
    · rintro ⟨steps, field, hl, name, ht, -, hn⟩
      exact ⟨steps, field, name, hl, ht, hn⟩
    · rintro ⟨steps, field, name, hl, ht, hn⟩
      exact ⟨steps, field, hl, name, ht, fun ho => hn (hl.1.opened_subset ho), hn⟩

/-- A declaration without direction and range of its own. -/
def plainField (name : String) (type : DeclaredType) (dimensions : List Dimension) (line : Nat) :
    Declaration :=
  { name, type, causality := .state, dimensions, range := none, line }

def gearField : Declaration := plainField "gear" (.record "Gear") [] 4

def driveRecord : RecordType :=
  { name := "Drive", line := 2, fields := [plainField "gain" (.primitive .real) [.fixed 2] 3, gearField] }

/-- A record that leads back to the one it is part of, and names one that is not declared. -/
def gearRecord : RecordType :=
  { name := "Gear", line := 6,
    fields := [plainField "mode" (.primitive .integer) [] 7, plainField "drive" (.record "Drive") [] 8,
      plainField "axle" (.record "Axle") [] 9] }

/-- A variable of the outer record has the elements of its array, the field of the inner record, a warning
where the inner record leads back, and an error where it leads nowhere. -/
theorem VariableTable.declareAll_driveRecord :
    let records := [driveRecord, gearRecord]
    let p := empty.declareAll records (plainField "plant" (.record "Drive") [] 11)
    WellNamed records ∧
      (p.1.get? "plant.gain[2]" =
        some { type := .real, causality := .state, line := 3, elementIndex := some [2] }) ∧
      ("plant.gear.mode", { type := .integer, causality := .state, line := 7 }) ∈ p.1.declared ∧
      (∃ i ∈ p.2, i.code = .unsupportedConstruct) ∧ ∃ i ∈ p.2, i.code = .undeclaredVariable := by
  intro records p
  have hw : WellNamed records := ⟨by decide, by decide, by decide⟩
  have hgain : LeadsTo records "Drive" [⟨driveRecord, plainField "gain" (.primitive .real) [.fixed 2] 3⟩]
      (plainField "gain" (.primitive .real) [.fixed 2] 3) :=
    ⟨isDescent_cons_iff.2 ⟨by decide, by decide, .inl rfl⟩, rfl⟩
  have hgear (t : Declaration) (ht : t ∈ gearRecord.fields) :
      LeadsTo records "Drive" [⟨driveRecord, gearField⟩, ⟨gearRecord, t⟩] t := by
    refine ⟨isDescent_cons_iff.2 ⟨by decide, by decide, .inr ⟨"Gear", rfl, ?_⟩⟩, rfl⟩
    exact isDescent_cons_iff.2 ⟨⟨List.mem_cons_of_mem _ List.mem_cons_self, rfl, ht⟩, by decide,
      .inl rfl⟩
  obtain ⟨hdeclared, helements, hopen, hunknown, -⟩ :=
    declareAll_record_exact hw (v := plainField "plant" (.record "Drive") [] 11) rfl
  refine ⟨hw, ?_, ?_, ?_, ?_⟩
  · have h := (helements "plant.gain[2]" _).2 ⟨_, _, .real, [2], hgain, rfl, by decide, rfl⟩
    exact h.1
  · exact (hdeclared _ _).2 ⟨_, _, _, hgear _ List.mem_cons_self, rfl, by decide, rfl⟩
  · exact hopen.2 ⟨_, _, "Drive", hgear (plainField "drive" (.record "Drive") [] 8) (by decide), rfl,
      by decide⟩
  · exact hunknown.2 (.inr ⟨_, _, "Axle", hgear (plainField "axle" (.record "Axle") [] 9) (by decide),
      rfl, by decide⟩)

end GalecAudit
