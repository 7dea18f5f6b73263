import GalecAudit.Proofs.Grammar.Word
import GalecAudit.Proofs.List.Distinct
import GalecAudit.Proofs.Variable.Elements
import GalecAudit.Variable.Scope

/-!
# Candidates of a look-up

Under which names a reference is looked for: an element under its own name and under that of its array,
and the previous value of an element under these two as well.
-/
namespace GalecAudit

theorem Text.after?_eq_some_iff {lead s rest : List Char} :
    after? lead s = some rest ↔ s = lead ++ rest := by
  unfold after?
  constructor
  · intro h
    split at h
    · next hp =>
      obtain ⟨behind, rfl⟩ := List.isPrefixOf_iff_prefix.1 hp
      rw [List.drop_left] at h
      cases h
      rfl
    · cases h
  · rintro rfl
    rw [if_pos (List.isPrefixOf_iff_prefix.2 (List.prefix_append lead rest)), List.drop_left]

theorem Text.before?_eq_some_iff {tail s rest : List Char} :
    before? tail s = some rest ↔ s = rest ++ tail := by
  unfold before?
  constructor
  · intro h
    split at h
    · next hs =>
      obtain ⟨ahead, rfl⟩ := List.isSuffixOf_iff_suffix.1 hs
      cases h
      simp
    · cases h
  · rintro rfl
    rw [if_pos (List.isSuffixOf_iff_suffix.2 (List.suffix_append rest tail))]
    simp

theorem toList_append_dot (name tail : String) :
    (name ++ "." ++ tail).toList = name.toList ++ '.' :: tail.toList := by
  rw [String.toList_append, String.toList_append, List.append_assoc]
  rfl

/-- The name of the value that a variable had before. -/
def previousName (name : String) : String := "'previous(" ++ name ++ ")'"

theorem toList_previousName (name : String) :
    (previousName name).toList = "'previous(".toList ++ (name.toList ++ ")'".toList) := by
  rw [previousName, String.toList_append, String.toList_append, List.append_assoc]

theorem previousOf?_eq_some_iff {name inner : String} :
    previousOf? name = some inner ↔ name = previousName inner := by
  rw [← String.toList_inj, toList_previousName, previousOf?, Text.between?]
  constructor
  · intro h
    split at h
    · next rest hrest =>
      obtain ⟨cs, hcs, rfl⟩ := Option.map_eq_some_iff.1 h
      rw [Text.after?_eq_some_iff.1 hrest, Text.before?_eq_some_iff.1 hcs, @String.toList_ofList cs]
    · cases h
  · intro h
    rw [Text.after?_eq_some_iff.2 h]
    change (Text.before? ")'".toList (inner.toList ++ ")'".toList)).map String.ofList = some inner
    rw [Text.before?_eq_some_iff.2 rfl, Option.map_some, String.ofList_toList]

/-- A name without brackets. -/
def BracketFree (name : String) : Prop := '[' ∉ name.toList ∧ ']' ∉ name.toList

instance (name : String) : Decidable (BracketFree name) := inferInstanceAs (Decidable (_ ∧ _))

theorem BracketFree.isPlain {name : String} (h : BracketFree name) : IsPlain name :=
  fun hl => h.2 (List.mem_of_getLast? hl)

/-- A name that begins with a letter and has no brackets, as those of variables and of fields do. -/
structure IsUnindexed (name : String) : Prop where
  first : name.toList.head?.any Char.isAlpha = true
  opening : '[' ∉ name.toList
  closing : ']' ∉ name.toList

theorem IsUnindexed.of_isIdentifier {name : String} (h : Grammar.IsIdentifier name) :
    IsUnindexed name :=
  ⟨h.1, fun hm => absurd (h.2 _ hm) (by decide), fun hm => absurd (h.2 _ hm) (by decide)⟩

theorem IsUnindexed.bracketFree {name : String} (h : IsUnindexed name) : BracketFree name :=
  ⟨h.opening, h.closing⟩

theorem IsUnindexed.isPlain {name : String} (h : IsUnindexed name) : IsPlain name :=
  h.bracketFree.isPlain

theorem previousOf?_eq_none {name : String} (h : name.toList.head?.any Char.isAlpha = true) :
    previousOf? name = none := by
  cases hp : previousOf? name with
  | none => rfl
  | some inner =>
    rw [previousOf?_eq_some_iff.1 hp, toList_previousName] at h
    exact absurd h (by simp)

theorem dropSubscripts_append {cs rest : List Char} (ho : '[' ∉ cs) (hc : ']' ∉ cs) (depth : Nat) :
    dropSubscripts depth (cs ++ rest) =
      (if depth = 0 then cs else []) ++ dropSubscripts depth rest := by
  induction cs with
  | nil => simp
  | cons c cs ih =>
    rw [List.mem_cons, not_or] at ho hc
    have hcs := ih ho.2 hc.2
    rw [List.cons_append, dropSubscripts, hcs]
    · by_cases hd : depth = 0 <;> simp [hd]
    · exact fun h => ho.1 h.symm
    · exact fun h => hc.1 h.symm

theorem BracketFree.baseName_eq {name : String} (h : BracketFree name) : baseName name = name := by
  have hd : dropSubscripts 0 (name.toList ++ []) = _ := dropSubscripts_append h.1 h.2 0
  rw [List.append_nil, if_pos rfl, dropSubscripts, List.append_nil] at hd
  rw [baseName, hd, String.ofList_toList]

section Candidates

variable {name inner : String} {c : Candidate}

/-- What stands behind a text adds to what is left of it without subscripts. -/
theorem exists_dropSubscripts_append (cs rest : List Char) (depth : Nat) :
    ∃ more, dropSubscripts depth (cs ++ rest) = dropSubscripts depth cs ++ more := by
  fun_induction dropSubscripts depth cs with
  | case1 depth => exact ⟨dropSubscripts depth rest, rfl⟩
  | case2 depth cs ih => exact ih
  | case3 depth cs ih => exact ih
  | case4 c cs ho hc ih =>
    obtain ⟨more, hmore⟩ := ih
    refine ⟨more, ?_⟩
    rw [List.cons_append, dropSubscripts, if_pos rfl, hmore, List.cons_append]
    · exact ho
    · exact hc
  | case5 depth c cs ho hc hd ih =>
    rw [List.cons_append, dropSubscripts, if_neg hd]
    · exact ih
    · exact ho
    · exact hc

/-- Nothing is left of the brackets of a name. -/
theorem bracketFree_baseName (name : String) : BracketFree (baseName name) := by
  have hdrop (depth : Nat) (cs : List Char) :
      '[' ∉ dropSubscripts depth cs ∧ ']' ∉ dropSubscripts depth cs := by
    fun_induction dropSubscripts depth cs with
    | case1 depth => exact ⟨List.not_mem_nil, List.not_mem_nil⟩
    | case2 depth cs ih => exact ih
    | case3 depth cs ih => exact ih
    | case4 c cs ho hc ih =>
      simp only [List.mem_cons, not_or]
      exact ⟨⟨fun he => ho he.symm, ih.1⟩, fun he => hc he.symm, ih.2⟩
    | case5 depth c cs ho hc hd ih => exact ih
  unfold BracketFree baseName
  rw [String.toList_ofList]
  exact hdrop 0 name.toList

/-- The variable behind a previous value has another array than the previous value itself. -/
theorem baseName_ne_of_previousOf? (h : previousOf? name = some inner) :
    baseName inner ≠ baseName name := by
  intro he
  have hlead : dropSubscripts 0 ("'previous(".toList ++ (inner.toList ++ ")'".toList)) = _ :=
    dropSubscripts_append (by decide) (by decide) 0
  obtain ⟨more, hmore⟩ := exists_dropSubscripts_append inner.toList ")'".toList 0
  rw [previousOf?_eq_some_iff.1 h, baseName, baseName, toList_previousName, hlead, hmore] at he
  have hl := congrArg (fun s => s.toList.length) he
  simp at hl
  omega

theorem mem_candidates (h : c ∈ candidates name) :
    c = ⟨name, false⟩ ∨ c = ⟨baseName name, true⟩ ∨ ∃ inner, previousOf? name = some inner ∧
      (c = ⟨inner, false⟩ ∨ c = ⟨baseName inner, true⟩) := by
  have hm := (eraseDupsBy_sublist _ _).subset h
  cases hp : previousOf? name with
  | none =>
    simp [hp] at hm
    exact hm.imp_right .inl
  | some inner =>
    simp [hp] at hm
    exact hm.imp_right (Or.imp_right fun hi => ⟨inner, rfl, hi⟩)

/-- A name is tried itself, and as an array where it has subscripts. -/
theorem own_mem_candidates (name : String) : ⟨name, false⟩ ∈ candidates name ∧
    (baseName name ≠ name → ⟨baseName name, true⟩ ∈ candidates name) := by
  simp only [candidates, List.cons_append, List.nil_append, List.eraseDupsBy_cons]
  refine ⟨List.mem_cons_self, fun hne => List.mem_cons_of_mem _ ?_⟩
  rw [List.filter_cons_of_pos (by simpa using hne), List.eraseDupsBy_cons]
  exact List.mem_cons_self

end Candidates

section Names

variable {name : String} {index : List Int}

theorem dropSubscripts_indexedName (hx : BracketFree name) (rest : List Char) :
    dropSubscripts 0 ((indexedName name index).toList ++ rest) =
      name.toList ++ dropSubscripts 0 rest := by
  have hio := not_mem_indexText (c := '[') (by decide) (by decide) index
  have hic := not_mem_indexText (c := ']') (by decide) (by decide) index
  rw [toList_indexedName, List.append_assoc, dropSubscripts_append hx.1 hx.2, if_pos rfl,
    List.cons_append, dropSubscripts, List.append_assoc, dropSubscripts_append hio hic,
    if_neg (by decide), List.nil_append, List.cons_append, dropSubscripts]
  rfl

/-- The array of an element. -/
theorem baseName_indexedName (hx : BracketFree name) : baseName (indexedName name index) = name := by
  have hd : dropSubscripts 0 ((indexedName name index).toList ++ []) = _ :=
    dropSubscripts_indexedName hx []
  rw [List.append_nil, dropSubscripts, List.append_nil] at hd
  rw [baseName, hd, String.ofList_toList]

theorem baseName_previousName (hx : IsUnindexed name) :
    baseName (previousName (indexedName name index)) = previousName name := by
  have hlead (rest : List Char) : dropSubscripts 0 ("'previous(".toList ++ rest) =
      "'previous(".toList ++ dropSubscripts 0 rest :=
    dropSubscripts_append (by decide) (by decide) 0
  have htail : dropSubscripts 0 ")'".toList = ")'".toList := by decide
  rw [baseName, toList_previousName, hlead, dropSubscripts_indexedName hx.bracketFree, htail,
    ← toList_previousName, String.ofList_toList]

theorem head?_indexedName (hx : IsUnindexed name) (index : List Int) :
    (indexedName name index).toList.head?.any Char.isAlpha = true := by
  rw [toList_indexedName]
  cases hn : name.toList with
  | nil =>
    have hfirst := hx.first
    rw [hn] at hfirst
    cases hfirst
  | cons c w =>
    have hfirst := hx.first
    rw [hn] at hfirst
    exact hfirst

theorem indexedName_ne (hx : IsUnindexed name) (index : List Int) :
    indexedName name index ≠ name :=
  fun he => not_isPlain_indexedName name index (he.symm ▸ hx.isPlain)

/-- An element of a variable is looked for under its own name and under that of its array. -/
theorem candidates_indexedName (hx : IsUnindexed name) :
    candidates (indexedName name index) = [⟨indexedName name index, false⟩, ⟨name, true⟩] := by
  have hne := indexedName_ne hx index
  rw [candidates, previousOf?_eq_none (head?_indexedName hx index),
    baseName_indexedName hx.bracketFree]
  simp [List.eraseDupsBy_cons, hne.symm]

theorem previousName_ne {other : String} (h : other.toList.head?.any Char.isAlpha = true) :
    previousName name ≠ other := by
  rintro rfl
  rw [toList_previousName] at h
  exact absurd h (by simp)

theorem IsUnindexed.ne_baseName_previousName (hx : IsUnindexed name) (inner : String) :
    name ≠ baseName (previousName inner) := by
  rintro rfl
  have hd : dropSubscripts 0 ("'previous(".toList ++ (inner.toList ++ ")'".toList)) = _ :=
    dropSubscripts_append (by decide) (by decide) 0
  have hfirst := hx.first
  rw [baseName, toList_previousName, hd, if_pos rfl, String.toList_ofList] at hfirst
  exact absurd hfirst (by simp)

/-- Behind a candidate without subscripts there is no candidate of another name. -/
theorem candidates_pairwise (name : String) :
    (candidates name).Pairwise fun c c' => IsUnindexed c.name → c'.name = c.name := by
  refine List.Pairwise.sublist (eraseDupsBy_sublist _ _) ?_
  cases hp : previousOf? name with
  | none => simpa using fun hx => hx.bracketFree.baseName_eq
  | some inner =>
    obtain rfl := previousOf?_eq_some_iff.1 hp
    have hown : ¬IsUnindexed (previousName inner) := fun h => previousName_ne h.first rfl
    have hbase : ¬IsUnindexed (baseName (previousName inner)) := fun h =>
      h.ne_baseName_previousName inner rfl
    have hinner (h : IsUnindexed inner) : baseName inner = inner := h.bracketFree.baseName_eq
    simpa [hown, hbase] using hinner

/-- A previous value of an element is looked for under its own names before those of the element. -/
theorem candidates_previousName (hx : IsUnindexed name) :
    candidates (previousName (indexedName name index)) =
      [⟨previousName (indexedName name index), false⟩, ⟨previousName name, true⟩,
        ⟨indexedName name index, false⟩, ⟨name, true⟩] := by
  have hne := indexedName_ne hx index
  have hprevious : previousName (indexedName name index) ≠ previousName name := by
    intro he
    rw [← String.toList_inj, toList_previousName, toList_previousName] at he
    exact hne (String.toList_inj.1 (List.append_cancel_right (List.append_cancel_left he)))
  have hletter := head?_indexedName hx index
  rw [candidates, previousOf?_eq_some_iff.2 rfl, baseName_previousName hx]
  simp [baseName_indexedName hx.bracketFree, List.eraseDupsBy_cons, hne.symm, hprevious.symm,
    (previousName_ne hletter).symm, (previousName_ne hx.first).symm]

/-- A listed element is found in the first table that lists it, wherever that stands. Only then does the
first table that knows the array count. -/
theorem Scope.lookup_indexedName (scope : Scope) (hx : IsUnindexed name) :
    scope.lookup (indexedName name index) = (scope.find? (indexedName name index)).or
      ((scope.find? name).filter fun entry => !isExpanded entry.dimensions) := by
  rw [lookup, candidates_indexedName hx, List.findSome?_cons]
  have hown : scope.resolve? ⟨indexedName name index, false⟩ =
      scope.find? (indexedName name index) := by
    rw [resolve?]
    cases scope.find? (indexedName name index) <;> rfl
  have hwhole : scope.resolve? ⟨name, true⟩ =
      (scope.find? name).filter fun entry => !isExpanded entry.dimensions := by
    simp [resolve?]
  rw [hown, List.findSome?_singleton, hwhole]
  cases scope.find? (indexedName name index) <;> rfl

theorem Scope.resolve?_eq_none {scope : Scope} {c : Candidate} (h : scope.find? c.name = none) :
    scope.resolve? c = none := by
  rw [resolve?, h, Option.filter_none]

/-- Where no name of a previous value is declared, a previous value of an element means the element. -/
theorem Scope.lookup_previousName (scope : Scope) (hx : IsUnindexed name)
    (h : ∀ other, scope.find? (previousName other) = none) :
    scope.lookup (previousName (indexedName name index)) = scope.lookup (indexedName name index) := by
  have hnone (other : String) (isAggregate : Bool) :
      scope.resolve? ⟨previousName other, isAggregate⟩ = none := resolve?_eq_none (h other)
  rw [lookup, lookup, candidates_previousName hx, candidates_indexedName hx, List.findSome?_cons,
    hnone, List.findSome?_cons, hnone]

end Names

end GalecAudit
