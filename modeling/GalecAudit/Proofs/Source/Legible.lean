import GalecAudit.Proofs.Grammar.Yield
import GalecAudit.Proofs.Source.Words

/-!
# Legible expressions

The expressions whose text is one of the grammar, and that what is read from a text is such an expression,
as far as its accesses are simple.
-/
namespace GalecAudit

/-- A 64-bit integer that is written as a literal with a sign or without one: any but the least. -/
def IsWritable (i : Int) : Prop := -9223372036854775808 < i ∧ i ≤ 9223372036854775807

/-- The name of a variable or of an element of one. -/
inductive IsReferenceName : String → Prop
  | name {x} : Grammar.IsName x → IsReferenceName x
  | element {x} {indices : List Int} : Grammar.IsName x → indices ≠ [] →
      (∀ i ∈ indices, IsWritable i) → IsReferenceName (indexedName x indices)

/-- An expression whose names and literals are spelled as such. -/
inductive Expression.Legible : Expression → Prop
  | constant {type text line} : Grammar.IsLiteral type text →
      (type = .integer → Source.word? (Source.decimal text) ≠ none) →
      Legible (.constant type text line)
  | reference {r} : IsReferenceName r.name → Legible (.reference r)
  | binary {left op right line} : Legible left → Legible right →
      Legible (.binary left op right line)
  | unary {op operand line} : Legible operand → Legible (.unary op operand line)
  | conditional {c v arms o line} : Legible c → Legible v → (∀ arm ∈ arms, Legible arm.1) →
      (∀ arm ∈ arms, Legible arm.2) → Legible o → Legible (.conditional c v arms o line)
  | call {name args line} : Grammar.IsName name → (∀ e ∈ args, Legible e) →
      Legible (.call name args line)
  | size {r dimension line} : IsReferenceName r.name → Legible dimension →
      Legible (.call "size" [.reference r, dimension] line)
  | array {elements line} : elements ≠ [] → (∀ e ∈ elements, Legible e) →
      Legible (.array elements line)

namespace Source

/-- An access stands somewhere in a tree. -/
inductive Access.In (a : Access Expr) : Expr → Prop
  | first {first rest line} : a.In first → In a (.chain first rest line)
  | rest {first line} {rest : List (BinaryOperator × Expr)} {p} : p ∈ rest → a.In p.2 →
      In a (.chain first rest line)
  | operand {op e line} : a.In e → In a (.unary op e line)
  | condition {c v arms o line} : a.In c → In a (.conditional c v arms o line)
  | value {c v arms o line} : a.In v → In a (.conditional c v arms o line)
  | armCondition {c v o line} {arms : List (Expr × Expr)} {arm} : arm ∈ arms → a.In arm.1 →
      In a (.conditional c v arms o line)
  | armValue {c v o line} {arms : List (Expr × Expr)} {arm} : arm ∈ arms → a.In arm.2 →
      In a (.conditional c v arms o line)
  | otherwise {c v arms o line} : a.In o → In a (.conditional c v arms o line)
  | inner {e line} : a.In e → In a (.paren e line)
  | element {text line} {elements : List Expr} {e} : e ∈ elements → a.In e →
      In a (.array elements text line)
  | array {dimension line} : In a (.size a dimension line)
  | arraySubscript {b : Access Expr} {dimension line} {s : Segment Expr} {e} : s ∈ b.segments →
      e ∈ s.subscripts → a.In e → In a (.size b dimension line)
  | dimension {b dimension line} : a.In dimension → In a (.size b dimension line)
  | argument {c : Call Expr} {e} : e ∈ c.args → a.In e → In a (.call c)
  | access : In a (.access a)
  | subscript {b : Access Expr} {s : Segment Expr} {e} : s ∈ b.segments → e ∈ s.subscripts →
      a.In e → In a (.access b)

/-- An access with one segment at most, and without the least 64-bit integer as a constant subscript. -/
structure Access.Simple (a : Access Expr) : Prop where
  single : a.segments.length ≤ 1
  least : ∀ s ∈ a.segments, ∀ values, values? [] s.subscripts = some values →
    -9223372036854775808 ∉ values

/-- A segment resolves to its name, or to the name of an element if its subscripts are constant. -/
theorem Segment.isReferenceName {s : Segment Expr} {p : String × List Reference}
    (hx : Grammar.IsName s.name)
    (hleast : ∀ values, values? [] s.subscripts = some values → -9223372036854775808 ∉ values)
    (h : s.resolve [] = .ok p) : IsReferenceName p.1 := by
  rw [Segment.resolve] at h
  split at h
  · cases h
    exact .name hx
  · next values hne hvalues =>
    cases h
    refine .element hx hne fun v hv => ?_
    have hw := isWord_iff.1 (LoopScope.isWords_nil.isWord_of_values? hvalues v hv)
    have hv' : v ≠ -9223372036854775808 := fun he => hleast values hvalues (he ▸ hv)
    exact ⟨by omega, hw.2⟩
  · obtain ⟨indices, -, h⟩ := bind_eq_ok_iff.1 h
    cases h
    exact .name hx

/-- A simple access with a name resolves to the name of a variable or of an element. -/
theorem Access.isReferenceName {a : Access Expr} {parts : List (String × List Reference)}
    (hnamed : a.WellNamed) (hsimple : a.Simple) (h : resolveSegments [] a.segments = .ok parts)
    (isState : Bool) (line : Nat) : IsReferenceName (joined isState parts line).name := by
  obtain ⟨s, hs⟩ := List.length_eq_one_iff.1
    (Nat.le_antisymm hsimple.single (List.length_pos_iff.2 hnamed.1))
  have hmem : s ∈ a.segments := hs ▸ List.mem_singleton_self s
  rw [hs, resolveSegments_eq_mapM, List.mapM_cons] at h
  obtain ⟨p, hp, h⟩ := bind_eq_ok_iff.1 h
  cases h
  have hname : (joined isState [p] line).name = p.1 := by
    rw [joined]
    simp
  have hreference := Segment.isReferenceName (hnamed.2 s hmem) (hsimple.least s hmem) hp
  rw [← hname] at hreference
  exact hreference

theorem legible_of_resolveChain {rest : List (BinaryOperator × Expr)} {left e : Expression}
    {line : Nat} (hleft : left.Legible)
    (hrest : ∀ p ∈ rest, ∀ right, p.2.resolve [] = .ok right → right.Legible)
    (h : resolveChain [] line left rest = .ok e) : e.Legible := by
  induction rest generalizing left with
  | nil =>
    cases h
    exact hleft
  | cons p rest ih =>
    obtain ⟨op, operand⟩ := p
    obtain ⟨hoperand, hrest⟩ := List.forall_mem_cons.1 hrest
    rw [resolveChain] at h
    obtain ⟨right, hright, h⟩ := bind_eq_ok_iff.1 h
    exact ih (.binary hleft (hoperand right hright)) hrest h

theorem ne_nil_of_resolveAll {es : List Expr} {out : List Expression} (hne : es ≠ [])
    (h : resolveAll [] es = .ok out) : out ≠ [] := by
  obtain ⟨e, rest, rfl⟩ := List.exists_cons_of_ne_nil hne
  rw [resolveAll] at h
  obtain ⟨first, -, h⟩ := bind_eq_ok_iff.1 h
  obtain ⟨others, -, h⟩ := bind_eq_ok_iff.1 h
  cases h
  exact List.cons_ne_nil first others

theorem legible_of_resolveAll {es : List Expr} {out : List Expression}
    (hes : ∀ e ∈ es, ∀ e', e.resolve [] = .ok e' → e'.Legible)
    (h : resolveAll [] es = .ok out) : ∀ e ∈ out, e.Legible := by
  intro e he
  rw [resolveAll_eq_mapM] at h
  obtain ⟨d, hd, hresolve⟩ := exists_of_mem_mapM h e he
  exact hes d hd e hresolve

/-- What a well-formed tree resolves to is legible if all its accesses are simple. -/
theorem Expr.WellFormed.legible {tree : Expr} (hw : tree.WellFormed)
    (hsimple : ∀ a : Access Expr, a.In tree → a.Simple) {e : Expression}
    (h : tree.resolve [] = .ok e) : e.Legible := by
  induction hw generalizing e with
  | chain _ _ ihf ihr =>
    rw [Expr.resolve] at h
    obtain ⟨left, hleft, h⟩ := bind_eq_ok_iff.1 h
    refine legible_of_resolveChain (ihf (fun a ha => hsimple a (.first ha)) hleft) ?_ h
    exact fun p hp _ hright => ihr p hp (fun a ha => hsimple a (.rest hp ha)) hright
  | unary _ ih =>
    rw [Expr.resolve] at h
    obtain ⟨operand, hoperand, h⟩ := bind_eq_ok_iff.1 h
    cases h
    exact .unary (ih (fun a ha => hsimple a (.operand ha)) hoperand)
  | conditional _ _ _ _ _ ihc ihv iha1 iha2 iho =>
    rw [Expr.resolve] at h
    obtain ⟨condition, hc, h⟩ := bind_eq_ok_iff.1 h
    obtain ⟨value, hv, h⟩ := bind_eq_ok_iff.1 h
    obtain ⟨arms, harms, h⟩ := bind_eq_ok_iff.1 h
    obtain ⟨otherwise, ho, h⟩ := bind_eq_ok_iff.1 h
    cases h
    rw [resolveArms_eq_mapM] at harms
    have harm : ∀ arm ∈ arms, arm.1.Legible ∧ arm.2.Legible := by
      intro arm harm
      obtain ⟨source, hs, hresolve⟩ := exists_of_mem_mapM harms arm harm
      obtain ⟨c, hac, hresolve⟩ := bind_eq_ok_iff.1 hresolve
      obtain ⟨v, hav, hresolve⟩ := bind_eq_ok_iff.1 hresolve
      cases hresolve
      exact ⟨iha1 source hs (fun a ha => hsimple a (.armCondition hs ha)) hac,
        iha2 source hs (fun a ha => hsimple a (.armValue hs ha)) hav⟩
    exact .conditional (ihc (fun a ha => hsimple a (.condition ha)) hc)
      (ihv (fun a ha => hsimple a (.value ha)) hv) (fun arm h => (harm arm h).1)
      (fun arm h => (harm arm h).2) (iho (fun a ha => hsimple a (.otherwise ha)) ho)
  | paren _ ih => exact ih (fun a ha => hsimple a (.inner ha)) h
  | array hne _ ih =>
    rw [Expr.resolve] at h
    obtain ⟨out, hout, h⟩ := bind_eq_ok_iff.1 h
    cases h
    exact .array (ne_nil_of_resolveAll hne hout) (legible_of_resolveAll
      (fun e he _ => ih e he fun a ha => hsimple a (.element he ha)) hout)
  | @size a dimension line hnamed _ ih =>
    obtain ⟨isState, segments, accessLine⟩ := a
    rw [Expr.resolve] at h
    obtain ⟨parts, hparts, h⟩ := bind_eq_ok_iff.1 h
    obtain ⟨d, hd, h⟩ := bind_eq_ok_iff.1 h
    cases h
    exact .size (Access.isReferenceName hnamed (hsimple _ .array) hparts _ _)
      (ih (fun a ha => hsimple a (.dimension ha)) hd)
  | @call c hx _ ih =>
    obtain ⟨name, args, line⟩ := c
    rw [Expr.resolve] at h
    obtain ⟨out, hout, h⟩ := bind_eq_ok_iff.1 h
    cases h
    exact .call hx (legible_of_resolveAll
      (fun e he _ => ih e he fun a ha => hsimple a (.argument he ha)) hout)
  | @literal type text line ht =>
    rw [Expr.resolve] at h
    split at h
    · cases h
    · next hrange =>
      cases h
      exact .constant ht fun hi hn => hrange ⟨hi, hn⟩
  | @access a hnamed =>
    obtain ⟨isState, segments, line⟩ := a
    rw [Expr.resolve, iteratorValue?_nil] at h
    obtain ⟨parts, hparts, h⟩ := bind_eq_ok_iff.1 h
    cases h
    exact .reference (Access.isReferenceName hnamed (hsimple _ .access) hparts _ _)

end Source
end GalecAudit
