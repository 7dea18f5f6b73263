import GalecAudit.Proofs.Language.Mention
import GalecAudit.Proofs.Source.Induction
import Mathlib.Data.List.Basic

/-!
# Accesses of an expression

Which accesses of a source tree are read as variables, and that these are the accesses that the resolved
expression mentions: none gets lost in subscripts, and none is added.
-/
namespace GalecAudit

/-- What the declaration check tells accesses apart by: their name and their line. -/
def Reference.key (r : Reference) : String × Nat := (r.name, r.line)

/-- The keys of all accesses of an expression. -/
def Expression.keys (e : Expression) : List (String × Nat) := e.references.map Reference.key

theorem Reference.Within.trans {r s t : Reference} (hr : r.Within s) (hs : s.Within t) :
    r.Within t := by
  induction hs with
  | self => exact hr
  | index hi _ ih => exact .index hi ih

/-- An expression mentions what stands in the subscripts of what it mentions. -/
theorem Expression.Mentions.within {r s : Reference} {e : Expression} (hr : r.Within s)
    (hs : e.Mentions s) : e.Mentions r := by
  induction hs with
  | reference h => exact .reference (hr.trans h)
  | left _ ih => exact .left ih
  | right _ ih => exact .right ih
  | operand _ ih => exact .operand ih
  | condition _ ih => exact .condition ih
  | value _ ih => exact .value ih
  | armCondition harm _ ih => exact .armCondition harm ih
  | armValue harm _ ih => exact .armValue harm ih
  | otherwise _ ih => exact .otherwise ih
  | argument ha _ ih => exact .argument ha ih
  | element ha _ ih => exact .element ha ih

theorem Reference.allWithIndices_append (rs ss : List Reference) :
    allWithIndices (rs ++ ss) = allWithIndices rs ++ allWithIndices ss := by
  induction rs with
  | nil => rfl
  | cons r rest ih => rw [List.cons_append, allWithIndices, ih, allWithIndices, List.append_assoc]

/-- The accesses of expressions are listed with all their subscripts already. -/
theorem Expression.mem_allWithIndices_listReferences {r : Reference} {es : List Expression} :
    r ∈ Reference.allWithIndices (listReferences es) ↔ r ∈ listReferences es := by
  rw [Reference.mem_allWithIndices_iff]
  constructor
  · rintro ⟨s, hs, hr⟩
    obtain ⟨e, he, hs⟩ := mem_listReferences_iff.1 hs
    exact mem_listReferences_iff.2 ⟨e, he, hs.within hr⟩
  · intro hr
    exact ⟨r, hr, .self⟩

namespace Source

/-- The subscripts of all segments of an access. -/
def Access.subscripts (a : Access Expr) : List Expr := a.segments.flatMap Segment.subscripts

/-- The expressions directly inside an expression, those in subscripts included. -/
def Expr.children : Expr → List Expr
  | chain first rest _ => first :: rest.map Prod.snd
  | unary _ operand _ => [operand]
  | conditional condition value elseIfs otherwise _ =>
    [condition, value] ++ elseIfs.flatMap (fun arm => [arm.1, arm.2]) ++ [otherwise]
  | paren inner _ => [inner]
  | array elements _ _ => elements
  | size a dimension _ => a.subscripts ++ [dimension]
  | call c => c.args
  | literal .. => []
  | access a => a.subscripts

/-- An access in a tree that is read as a variable: an operand that is no iterator of a loop, or the array
of a size query, at any depth. -/
inductive Access.ReadIn (scope : LoopScope) (a : Access Expr) : Expr → Prop
  | operand : a.iteratorValue? scope = none → ReadIn scope a (.access a)
  | sized {dimension line} : ReadIn scope a (.size a dimension line)
  | inside {e child} : child ∈ e.children → a.ReadIn scope child → ReadIn scope a e

/-- The name of a segment with its subscripts, where all of them are constant. -/
def Segment.text (scope : LoopScope) (s : Segment Expr) : String :=
  match values? scope s.subscripts with
  | some (v :: vs) => indexedName s.name (v :: vs)
  | _ => s.name

/-- The name and the line under which an access is checked. -/
def Access.key (scope : LoopScope) (a : Access Expr) : String × Nat :=
  (".".intercalate (a.segments.map (Segment.text scope)), a.line)

/-- Some access with the given name and line is read in a tree. -/
def Expr.Reads (scope : LoopScope) (key : String × Nat) (e : Expr) : Prop :=
  ∃ a : Access Expr, a.ReadIn scope e ∧ a.key scope = key

variable {scope : LoopScope} {key : String × Nat}

section Constant

theorem Access.subscripts_eq_nil {a : Access Expr} (h : a.iteratorValue? scope ≠ none) :
    a.subscripts = [] := by
  obtain ⟨isState, segments, line⟩ := a
  unfold iteratorValue? bareName? at h
  split at h
  · next heq =>
    cases heq
    rfl
  · exact absurd rfl h

/-- Every expression inside a constant one is constant. -/
theorem Expr.value?_isSome {e child : Expr} {v : Int} (h : e.value? scope = some v)
    (hc : child ∈ e.children) : (child.value? scope).isSome := by
  cases e with
  | chain first rest line =>
    rw [value?] at h
    split at h
    · next hfirst =>
      rw [children, List.mem_cons, List.mem_map] at hc
      rcases hc with rfl | ⟨p, hp, rfl⟩
      · exact hfirst ▸ rfl
      · exact chainValue?_isSome h p hp
    · cases h
  | unary op operand line =>
    cases List.mem_singleton.1 hc
    cases op with
    | not => cases h
    | negate =>
      rw [value?] at h
      split at h
      · next hoperand => exact hoperand ▸ rfl
      · cases h
  | paren inner line =>
    cases List.mem_singleton.1 hc
    exact Option.isSome_iff_exists.2 ⟨v, h⟩
  | access a =>
    have hnone : a.subscripts = [] := Access.subscripts_eq_nil fun hn => by
      rw [value?, hn] at h
      cases h
    rw [children, hnone] at hc
    cases hc
  | literal => cases hc
  | conditional | array | size | call => cases h

/-- A constant expression reads no variable: all its accesses are iterators. -/
theorem Access.ReadIn.value?_eq_none {a : Access Expr} {e : Expr} (h : a.ReadIn scope e) :
    e.value? scope = none := by
  induction h with
  | operand hn => exact hn
  | sized => rfl
  | @inside e child hc _ ih =>
    cases hv : e.value? scope with
    | none => rfl
    | some v =>
      have hchild := Expr.value?_isSome hv hc
      rw [ih] at hchild
      cases hchild

theorem Expr.not_reads_of_values? {es : List Expr} {values : List Int}
    (h : values? scope es = some values) : ∀ e ∈ es, ¬e.Reads scope key := by
  induction values?_eq_some_iff.1 h with
  | nil => nofun
  | cons hv hrest ih =>
    refine List.forall_mem_cons.2 ⟨?_, ih (values?_eq_some_iff.2 hrest)⟩
    rintro ⟨a, ha, -⟩
    rw [ha.value?_eq_none] at hv
    cases hv

end Constant

section Reads

theorem Expr.reads_iff {e : Expr} : e.Reads scope key ↔
    (∃ a : Access Expr, a.key scope = key ∧
      (a.iteratorValue? scope = none ∧ e = .access a ∨ ∃ dimension line, e = .size a dimension line)) ∨
    ∃ child ∈ e.children, child.Reads scope key := by
  constructor
  · rintro ⟨a, ha, hkey⟩
    cases ha with
    | operand hn => exact .inl ⟨a, hkey, .inl ⟨hn, rfl⟩⟩
    | sized => exact .inl ⟨a, hkey, .inr ⟨_, _, rfl⟩⟩
    | inside hc ha => exact .inr ⟨_, hc, a, ha, hkey⟩
  · rintro (⟨a, hkey, ⟨hn, rfl⟩ | ⟨dimension, line, rfl⟩⟩ | ⟨child, hc, a, ha, hkey⟩)
    · exact ⟨a, .operand hn, hkey⟩
    · exact ⟨a, .sized, hkey⟩
    · exact ⟨a, .inside hc ha, hkey⟩

@[simp] theorem Expr.reads_chain {first rest line} : (chain first rest line).Reads scope key ↔
    first.Reads scope key ∨ ∃ p ∈ rest, p.2.Reads scope key := by
  rw [reads_iff, children, List.exists_mem_cons_iff]
  simp only [List.mem_map, exists_exists_and_eq_and, reduceCtorEq, and_false, exists_false, or_self,
    false_or]

@[simp] theorem Expr.reads_unary {op operand line} :
    (unary op operand line).Reads scope key ↔ operand.Reads scope key := by
  rw [reads_iff]
  simp [children]

@[simp] theorem Expr.reads_conditional {condition value elseIfs otherwise line} :
    (conditional condition value elseIfs otherwise line).Reads scope key ↔
      condition.Reads scope key ∨ value.Reads scope key ∨
      (∃ arm ∈ elseIfs, arm.1.Reads scope key ∨ arm.2.Reads scope key) ∨
      otherwise.Reads scope key := by
  have harms : (∃ e ∈ elseIfs.flatMap (fun arm => [arm.1, arm.2]), e.Reads scope key) ↔
      ∃ arm ∈ elseIfs, arm.1.Reads scope key ∨ arm.2.Reads scope key := by
    constructor
    · rintro ⟨e, he, hr⟩
      obtain ⟨arm, harm, he⟩ := List.mem_flatMap.1 he
      rcases List.mem_pair.1 he with rfl | rfl
      · exact ⟨arm, harm, .inl hr⟩
      · exact ⟨arm, harm, .inr hr⟩
    · rintro ⟨arm, harm, hr | hr⟩
      · exact ⟨arm.1, List.mem_flatMap.2 ⟨arm, harm, by simp⟩, hr⟩
      · exact ⟨arm.2, List.mem_flatMap.2 ⟨arm, harm, by simp⟩, hr⟩
  rw [reads_iff, children, ← harms]
  simp only [List.mem_append, or_and_right, exists_or]
  simp [or_assoc]

@[simp] theorem Expr.reads_paren {inner line} :
    (paren inner line).Reads scope key ↔ inner.Reads scope key := by
  rw [reads_iff]
  simp [children]

@[simp] theorem Expr.reads_array {elements text line} :
    (array elements text line).Reads scope key ↔ ∃ e ∈ elements, e.Reads scope key := by
  rw [reads_iff]
  simp [children]

@[simp] theorem Expr.reads_size {a dimension line} : (size a dimension line).Reads scope key ↔
    (a.key scope = key ∨ ∃ e ∈ a.subscripts, e.Reads scope key) ∨ dimension.Reads scope key := by
  rw [reads_iff]
  simp [children, or_and_right, exists_or, or_assoc]

@[simp] theorem Expr.reads_call {c} : (call c).Reads scope key ↔ ∃ e ∈ c.args, e.Reads scope key := by
  rw [reads_iff]
  simp [children]

@[simp] theorem Expr.reads_literal {type text line} :
    ¬(literal type text line).Reads scope key := by
  rw [reads_iff]
  simp [children]

@[simp] theorem Expr.reads_access {a} : (access a).Reads scope key ↔
    (a.iteratorValue? scope = none ∧ a.key scope = key) ∨ ∃ e ∈ a.subscripts, e.Reads scope key := by
  rw [reads_iff]
  simp [children, and_comm]

end Reads

section Resolution

/-- An expression keeps its reads: what it resolves to mentions a variable exactly if the tree reads it. -/
def Expr.KeepsReads (scope : LoopScope) (key : String × Nat) (e : Expr) : Prop :=
  ∀ out, e.resolve scope = .ok out → (key ∈ out.keys ↔ e.Reads scope key)

theorem mem_keys_listReferences {es : List Expression} :
    key ∈ (Expression.listReferences es).map Reference.key ↔ ∃ e ∈ es, key ∈ e.keys := by
  induction es with
  | nil => simp [Expression.listReferences]
  | cons e rest ih =>
    rw [Expression.listReferences, List.map_append, List.mem_append, ih, List.exists_mem_cons_iff,
      Expression.keys]

theorem mem_keys_of_resolveAll {es : List Expr} (hes : ∀ e ∈ es, e.KeepsReads scope key)
    {out : List Expression} (h : resolveAll scope es = .ok out) :
    (∃ e ∈ out, key ∈ e.keys) ↔ ∃ e ∈ es, e.Reads scope key := by
  induction es generalizing out with
  | nil =>
    cases h
    simp
  | cons e rest ih =>
    obtain ⟨he, hrest⟩ := List.forall_mem_cons.1 hes
    rw [resolveAll] at h
    obtain ⟨first, hfirst, h⟩ := bind_eq_ok_iff.1 h
    obtain ⟨others, hothers, h⟩ := bind_eq_ok_iff.1 h
    cases h
    simp only [List.exists_mem_cons_iff, he first hfirst, ih hrest hothers]

theorem mem_keys_of_resolveChain {rest : List (BinaryOperator × Expr)}
    (hrest : ∀ p ∈ rest, p.2.KeepsReads scope key) {left out : Expression} {line : Nat}
    (h : resolveChain scope line left rest = .ok out) :
    key ∈ out.keys ↔ key ∈ left.keys ∨ ∃ p ∈ rest, p.2.Reads scope key := by
  induction rest generalizing left with
  | nil =>
    cases h
    simp
  | cons p rest ih =>
    obtain ⟨op, operand⟩ := p
    obtain ⟨hoperand, hrest⟩ := List.forall_mem_cons.1 hrest
    rw [resolveChain] at h
    obtain ⟨right, hright, h⟩ := bind_eq_ok_iff.1 h
    have hkeys : key ∈ (Expression.binary left op right line).keys ↔
        key ∈ left.keys ∨ key ∈ right.keys := by
      simp only [Expression.keys, Expression.references, List.map_append, List.mem_append]
    rw [ih hrest h, hkeys, hoperand right hright, List.exists_mem_cons_iff, or_assoc]

theorem mem_keys_of_resolveArms {arms : List (Expr × Expr)}
    (harms : ∀ arm ∈ arms, arm.1.KeepsReads scope key ∧ arm.2.KeepsReads scope key)
    {out : List (Expression × Expression)} (h : resolveArms scope arms = .ok out) :
    key ∈ (Expression.armReferences out).map Reference.key ↔
      ∃ arm ∈ arms, arm.1.Reads scope key ∨ arm.2.Reads scope key := by
  induction arms generalizing out with
  | nil =>
    cases h
    simp [Expression.armReferences]
  | cons arm rest ih =>
    obtain ⟨⟨hc, hv⟩, hrest⟩ := List.forall_mem_cons.1 harms
    rw [resolveArms] at h
    obtain ⟨condition, hcondition, h⟩ := bind_eq_ok_iff.1 h
    obtain ⟨value, hvalue, h⟩ := bind_eq_ok_iff.1 h
    obtain ⟨others, hothers, h⟩ := bind_eq_ok_iff.1 h
    cases h
    have hc := hc condition hcondition
    have hv := hv value hvalue
    rw [Expression.keys] at hc hv
    simp only [Expression.armReferences, List.map_append, List.mem_append, hc, hv, ih hrest hothers,
      List.exists_mem_cons_iff]

/-- The subscripts of a segment keep their reads, and its text is its name with constant subscripts. -/
theorem Segment.keepsReads {s : Segment Expr} (hs : ∀ e ∈ s.subscripts, e.KeepsReads scope key)
    {part : String × List Reference} (h : s.resolve scope = .ok part) :
    part.1 = s.text scope ∧ (key ∈ (Reference.allWithIndices part.2).map Reference.key ↔
      ∃ e ∈ s.subscripts, e.Reads scope key) := by
  -- constant subscripts become text, which is right as there are only iterators in them
  have hconstant {values : List Int} (hv : values? scope s.subscripts = some values) :
      key ∈ (Reference.allWithIndices []).map Reference.key ↔
        ∃ e ∈ s.subscripts, e.Reads scope key := by
    refine iff_of_false (fun hm => by cases hm) ?_
    rintro ⟨e, he, hr⟩
    exact Expr.not_reads_of_values? hv e he hr
  rw [resolve] at h
  rw [text]
  split at h
  · next hv =>
    cases h
    rw [hv]
    exact ⟨rfl, hconstant hv⟩
  · next values hne hv =>
    cases h
    obtain ⟨v, vs, rfl⟩ := List.exists_cons_of_ne_nil hne
    rw [hv]
    exact ⟨rfl, hconstant hv⟩
  · next hv =>
    obtain ⟨indices, hindices, h⟩ := bind_eq_ok_iff.1 h
    cases h
    rw [hv]
    refine ⟨rfl, ?_⟩
    rw [← mem_keys_of_resolveAll hs hindices, ← mem_keys_listReferences, List.mem_map, List.mem_map]
    simp only [Expression.mem_allWithIndices_listReferences]

theorem mem_keys_of_resolveSegments {segments : List (Segment Expr)}
    (hs : Segment.Each (Expr.KeepsReads scope key) segments) {parts : List (String × List Reference)}
    (h : resolveSegments scope segments = .ok parts) :
    parts.map (·.1) = segments.map (Segment.text scope) ∧
    (key ∈ (Reference.allWithIndices (parts.flatMap (·.2))).map Reference.key ↔
      ∃ e ∈ segments.flatMap Segment.subscripts, e.Reads scope key) := by
  rw [resolveSegments_eq_mapM] at h
  induction segments generalizing parts with
  | nil =>
    cases h
    simp [Reference.allWithIndices]
  | cons s rest ih =>
    obtain ⟨hfirst, hrest⟩ := List.forall_mem_cons.1 hs
    rw [List.mapM_cons] at h
    obtain ⟨part, hpart, h⟩ := bind_eq_ok_iff.1 h
    obtain ⟨others, hothers, h⟩ := bind_eq_ok_iff.1 h
    cases h
    obtain ⟨htext, hkeys⟩ := Segment.keepsReads hfirst hpart
    obtain ⟨htexts, hothers⟩ := ih hrest hothers
    refine ⟨by rw [List.map_cons, List.map_cons, htext, htexts], ?_⟩
    simp only [List.flatMap_cons, Reference.allWithIndices_append, List.map_append, List.mem_append,
      hkeys, hothers, or_and_right, exists_or]

/-- The reference that an access becomes has its key, and its subscripts keep their reads. -/
theorem mem_keys_joined {a : Access Expr} (ha : Segment.Each (Expr.KeepsReads scope key) a.segments)
    {parts : List (String × List Reference)} (h : resolveSegments scope a.segments = .ok parts) :
    key ∈ (Expression.reference (joined a.isState parts a.line)).keys ↔
      a.key scope = key ∨ ∃ e ∈ a.subscripts, e.Reads scope key := by
  obtain ⟨htexts, hkeys⟩ := mem_keys_of_resolveSegments ha h
  rw [Access.subscripts, ← hkeys, Expression.keys, Expression.references, joined,
    Reference.withIndices, List.map_cons, List.mem_cons, Reference.key, htexts, Access.key, eq_comm]

/-- What an expression resolves to mentions exactly the variables that the tree reads. -/
theorem Expr.keepsReads (tree : Expr) : tree.KeepsReads scope key := by
  induction tree using Expr.induct with
  | chain first rest line ihf ihr =>
    intro out h
    rw [resolve] at h
    obtain ⟨left, hleft, h⟩ := bind_eq_ok_iff.1 h
    rw [mem_keys_of_resolveChain ihr h, ihf left hleft, reads_chain]
  | unary op operand line ih =>
    intro out h
    rw [resolve] at h
    obtain ⟨operand', hoperand, h⟩ := bind_eq_ok_iff.1 h
    cases h
    rw [reads_unary, ← ih operand' hoperand, Expression.keys, Expression.references, Expression.keys]
  | conditional condition value elseIfs otherwise line ihc ihv iha iho =>
    intro out h
    rw [resolve] at h
    obtain ⟨c, hc, h⟩ := bind_eq_ok_iff.1 h
    obtain ⟨v, hv, h⟩ := bind_eq_ok_iff.1 h
    obtain ⟨arms, harms, h⟩ := bind_eq_ok_iff.1 h
    obtain ⟨o, ho, h⟩ := bind_eq_ok_iff.1 h
    cases h
    rw [reads_conditional, ← ihc c hc, ← ihv v hv, ← mem_keys_of_resolveArms iha harms, ← iho o ho,
      Expression.keys, Expression.references]
    simp only [Expression.keys, List.map_append, List.mem_append, or_assoc]
  | paren inner line ih =>
    intro out h
    rw [resolve] at h
    rw [reads_paren, ih out h]
  | array elements text line ih =>
    intro out h
    rw [resolve] at h
    obtain ⟨es, hes, h⟩ := bind_eq_ok_iff.1 h
    cases h
    rw [reads_array, ← mem_keys_of_resolveAll ih hes, ← mem_keys_listReferences, Expression.keys,
      Expression.references]
  | size isState segments accessLine dimension line ihs ihd =>
    intro out h
    rw [resolve] at h
    obtain ⟨parts, hparts, h⟩ := bind_eq_ok_iff.1 h
    obtain ⟨d, hd, h⟩ := bind_eq_ok_iff.1 h
    cases h
    rw [reads_size, ← mem_keys_joined (a := ⟨isState, segments, accessLine⟩) ihs hparts, ← ihd d hd,
      Expression.keys, Expression.references, mem_keys_listReferences]
    simp
  | call name args line ih =>
    intro out h
    rw [resolve] at h
    obtain ⟨es, hes, h⟩ := bind_eq_ok_iff.1 h
    cases h
    rw [reads_call, ← mem_keys_of_resolveAll ih hes, ← mem_keys_listReferences, Expression.keys,
      Expression.references]
  | literal type text line =>
    intro out h
    rw [resolve] at h
    split at h
    · cases h
    · cases h
      exact iff_of_false (fun hm => by cases hm) reads_literal
  | access isState segments line ih =>
    intro out h
    rw [resolve] at h
    split at h
    · next hv =>
      cases h
      have hnone : Access.subscripts ⟨isState, segments, line⟩ = [] :=
        Access.subscripts_eq_nil fun hn => by rw [hn] at hv; cases hv
      rw [reads_access, hnone, hv]
      exact iff_of_false (fun hm => by cases hm) (by simp)
    · next hn =>
      obtain ⟨parts, hparts, h⟩ := bind_eq_ok_iff.1 h
      cases h
      rw [reads_access, hn, mem_keys_joined (a := ⟨isState, segments, line⟩) ih hparts]
      simp

end Resolution

end Source
end GalecAudit
