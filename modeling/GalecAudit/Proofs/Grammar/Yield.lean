import GalecAudit.Grammar.Expression
import GalecAudit.Grammar.SyntaxError
import GalecAudit.Proofs.Grammar.Name
import GalecAudit.Proofs.Grammar.Reading

/-!
# What parsers yield

Whatever the text is, the trees that the parsers of the grammar make of it are well formed: names and
literals are spelled as such, and no access or array is empty.
-/
namespace GalecAudit

namespace Source

/-- An access has segments, and each has a name. -/
def Access.WellNamed (a : Access Expr) : Prop :=
  a.segments ≠ [] ∧ ∀ s ∈ a.segments, Grammar.IsName s.name

/-- A tree that the grammar can make of a text. -/
inductive Expr.WellFormed : Expr → Prop
  | chain {first rest line} : WellFormed first → (∀ p ∈ rest, WellFormed p.2) →
      WellFormed (.chain first rest line)
  | unary {op operand line} : WellFormed operand → WellFormed (.unary op operand line)
  | conditional {c v arms o line} : WellFormed c → WellFormed v →
      (∀ arm ∈ arms, WellFormed arm.1) → (∀ arm ∈ arms, WellFormed arm.2) → WellFormed o →
      WellFormed (.conditional c v arms o line)
  | paren {inner line} : WellFormed inner → WellFormed (.paren inner line)
  | array {elements text line} : elements ≠ [] → (∀ e ∈ elements, WellFormed e) →
      WellFormed (.array elements text line)
  | size {a dimension line} : a.WellNamed → WellFormed dimension →
      WellFormed (.size a dimension line)
  | call {c} : Grammar.IsName c.name → (∀ e ∈ c.args, WellFormed e) → WellFormed (.call c)
  | literal {type text line} : Grammar.IsLiteral type text → WellFormed (.literal type text line)
  | access {a} : a.WellNamed → WellFormed (.access a)

end Source

namespace Grammar

open Source

namespace Parser

variable {α β : Type} {p q : Parser α} {P : α → Prop}

/-- Whatever the parser reads has a property. -/
def Yields (p : Parser α) (P : α → Prop) : Prop := ∀ c a d, p.parse c = some (a, d) → P a

theorem yields_true (p : Parser α) : Yields p fun _ => True := fun _ _ _ _ => trivial

theorem Yields.map {f : α → β} {Q : β → Prop} (h : Yields p P) (hf : ∀ a, P a → Q (f a)) :
    Yields (f <$> p) Q := by
  intro c b d hd
  obtain ⟨a, ha, rfl⟩ := parse_map_eq_some_iff.1 hd
  exact hf a (h c a d ha)

theorem Yields.seq {f : Parser (α → β)} {Q : β → Prop}
    (hf : Yields f fun g => ∀ a, P a → Q (g a)) (hp : Yields p P) : Yields (f <*> p) Q := by
  intro c b d hd
  obtain ⟨g, next, a, hg, ha, rfl⟩ := parse_seq_eq_some_iff.1 hd
  exact hf c g next hg a (hp _ a d ha)

theorem Yields.seqLeft (h : Yields p P) (r : Parser β) : Yields (p <* r) P :=
  Yields.seq (h.map (f := fun a _ => a) fun _ ha _ _ => ha) (yields_true r)

theorem Yields.seqRight (h : Yields p P) (r : Parser β) : Yields (r *> p) P :=
  Yields.seq ((yields_true r).map (f := fun _ a => a) fun _ _ _ ha => ha) h

theorem Yields.orElse (hp : Yields p P) (hq : Yields q P) : Yields (p <|> q) P := by
  intro c a d hd
  rcases parse_orElse_eq_some_iff.1 hd with hd | ⟨-, hd⟩
  · exact hp c a d hd
  · exact hq c a d hd

theorem Yields.optional (h : Yields p P) : Yields p.optional fun o => ∀ a ∈ o, P a := by
  intro c o d hd
  rcases parse_optional_eq_some_iff.1 hd with ⟨a, ha, rfl⟩ | ⟨-, rfl, rfl⟩
  · intro b hb
    cases hb
    exact h c a d ha
  · nofun

theorem Yields.many (h : Yields p P) : Yields p.many fun as => ∀ a ∈ as, P a := by
  have hmany (c : Cursor) : ∀ a ∈ (p.readMany c).1, P a := by
    fun_induction readMany p c with
    | case1 c a next hnext hlt rest last hrest ih =>
      rw [hrest] at ih
      exact List.forall_mem_cons.2 ⟨h _ a next hnext, ih⟩
    | case2 c a next hnext hlt => exact List.forall_mem_singleton.2 (h _ a next hnext)
    | case3 c hnone => nofun
  intro c as d hd
  have has := hmany c
  rw [parse_many_eq_some_iff.1 hd] at has
  exact has

theorem Yields.separated (h : Yields p P) (separator : Parser Unit) :
    Yields (p.separated separator) fun as => as ≠ [] ∧ ∀ a ∈ as, P a :=
  Yields.seq (h.map fun _ ha _ has => ⟨List.cons_ne_nil _ _, List.forall_mem_cons.2 ⟨ha, has⟩⟩)
    (h.seqRight separator).many

theorem Yields.located {f : Parser (Nat → α)} (h : Yields f fun g => ∀ line, P (g line)) :
    Yields f.located P := by
  intro c a d hd
  obtain ⟨g, hg, rfl⟩ := parse_located_eq_some_iff.1 hd
  exact h c g d hg c.line

theorem Yields.quoted {f : Parser (String → α)} (h : Yields f fun g => ∀ s, P (g s)) :
    Yields f.quoted P := by
  intro c a d hd
  obtain ⟨g, hg, rfl⟩ := parse_quoted_eq_some_iff.1 hd
  exact h c g d hg _

theorem Yields.rule (h : Yields p P) (name : Rule) : Yields (p.rule name) P := h

theorem yields_token {rule : Rule} {scan : Scanner} {P : String → Prop}
    (h : ∀ cs w, scan cs = some w → P (String.ofList w)) : Yields (token rule scan) P := by
  intro c a d hd
  obtain ⟨w, hw, rfl, rfl⟩ := parse_token_eq_some_iff.1 hd
  exact h _ w hw

theorem yields_nested {f : Parser α → Parser α} (h : ∀ p, Yields p P → Yields (f p) P)
    (depth : Nat) : Yields (nested f depth) P := by
  induction depth with
  | zero => exact fun _ _ _ hd => nomatch hd
  | succ depth ih => exact h _ ih

theorem yields_fix {f : Parser α → Parser α} (h : ∀ p, Yields p P → Yields (f p) P) :
    Yields (fix f) P := fun c => yields_nested h (c.rest.length + 1) c

end Parser

open Grammar.Parser

theorem yields_name : Yields name IsName := by
  refine (yields_token fun cs w hw => .inr (Lexeme.isQuoted_of_quotedName hw)).orElse ?_
  exact yields_token fun cs w hw => .inl (Lexeme.isIdentifier_of_ident hw)

theorem mem_of_wordOf {spellings : List String} {cs w : List Char}
    (h : Scanner.wordOf spellings cs = some w) : String.ofList w ∈ spellings := by
  obtain ⟨s, hs, rfl, -⟩ := Scanner.exists_of_wordOf h
  rwa [String.ofList_toList]

theorem yields_constant : Yields constant Expr.WellFormed := by
  have htoken {type : PrimitiveType} {rule : Rule} {scan : Scanner}
      (h : ∀ cs w, scan cs = some w → IsLiteral type (String.ofList w)) :
      Yields (Expr.literal type <$> token rule scan) fun g => ∀ line, (g line).WellFormed :=
    (yields_token h).map fun _ hs _ => .literal hs
  have hboolean (cs w : List Char) (h : Scanner.wordOf ["true", "false"] cs = some w) :
      IsLiteral .boolean (String.ofList w) := .boolean (by simpa using mem_of_wordOf h)
  have hreal (cs w : List Char) (h : Lexeme.real cs = some w) :
      IsLiteral .real (String.ofList w) :=
    .real (String.toList_ofList.symm ▸ Lexeme.isReal_of_real h)
  have hinteger (cs w : List Char) (h : Lexeme.integer cs = some w) :
      IsLiteral .integer (String.ofList w) :=
    .integer (String.toList_ofList.symm ▸ Lexeme.isDigits_of_digits h)
  exact ((htoken hboolean).orElse ((htoken hreal).orElse (htoken hinteger))).located.rule _

section Expressions

variable {expr : Parser Expr}

theorem yields_reference : Yields (reference expr) Access.WellNamed := by
  have hsegment : Yields (referenceSegment expr) fun s => IsName s.name := by
    refine Yields.rule (Yields.seq (yields_name.map ?_) (yields_true _)) _
    exact fun _ hx _ _ => hx
  have hstate : Yields (stateReference expr) fun g => ∀ line, (g line).WellNamed := by
    refine Yields.rule (Yields.map ((hsegment.separated _).seqRight _) ?_) _
    exact fun _ hs _ => hs
  have hlocal : Yields (localReference expr) fun g => ∀ line, (g line).WellNamed := by
    refine Yields.rule (hsegment.map ?_) _
    exact fun _ hs _ => ⟨List.cons_ne_nil _ _, List.forall_mem_singleton.2 hs⟩
  exact (hstate.orElse hlocal).located.rule _

variable (h : Yields expr Expr.WellFormed)
include h

theorem yields_functionCall :
    Yields (functionCall expr) fun c => IsName c.name ∧ ∀ e ∈ c.args, e.WellFormed := by
  refine Yields.rule (Yields.located (Yields.seqLeft
    (Yields.seq (Yields.seqLeft (yields_name.map ?_) _) (h.separated _).optional) _)) _
  intro x hx o ho line
  refine ⟨hx, fun e he => ?_⟩
  cases o with
  | none => cases he
  | some args => exact (ho args rfl).2 e he

theorem yields_sizeQuery : Yields (sizeQuery expr) Expr.WellFormed := by
  refine Yields.rule (Yields.located (Yields.seqLeft
    (Yields.seq (Yields.seqLeft ((yields_reference.seqRight _).map ?_) _) h) _)) _
  exact fun _ ha _ hd _ => .size ha hd

theorem yields_arrayConstructor : Yields (arrayConstructor expr) Expr.WellFormed := by
  refine Yields.rule (Yields.located (Yields.quoted (Yields.map
    (((h.separated _).seqRight _).seqLeft _) ?_))) _
  exact fun _ ⟨hne, hes⟩ _ _ => .array hne hes

theorem yields_parenthesized : Yields (parenthesized expr) Expr.WellFormed := by
  refine Yields.rule (Yields.located (Yields.map ((h.seqRight _).seqLeft _) ?_)) _
  exact fun _ he _ => .paren he

theorem yields_ifExpression : Yields (ifExpression expr) Expr.WellFormed := by
  have harm : Yields (elseifExpression expr) fun arm => arm.1.WellFormed ∧ arm.2.WellFormed := by
    refine Yields.rule (Yields.seq (Yields.seqLeft ((h.seqRight _).map ?_) _) h) _
    exact fun _ hc _ hv => ⟨hc, hv⟩
  refine Yields.rule (Yields.located (Yields.seq (Yields.seqLeft
    (Yields.seq (Yields.seq (Yields.seqLeft ((h.seqRight _).map ?_) _) h) harm.many) _) h)) _
  intro _ hc _ hv arms harms _ ho line
  exact .conditional hc hv (fun arm ha => (harms arm ha).1) (fun arm ha => (harms arm ha).2) ho

theorem yields_atom : Yields (atom expr) Expr.WellFormed := by
  have hcall := (yields_functionCall h).map fun _ ⟨hx, hargs⟩ => Expr.WellFormed.call hx hargs
  have haccess : Yields (Expr.access <$> reference expr) Expr.WellFormed :=
    yields_reference.map fun _ ha => .access ha
  exact (yields_ifExpression h).orElse ((yields_parenthesized h).orElse
    ((yields_arrayConstructor h).orElse ((yields_sizeQuery h).orElse
      (hcall.orElse (yields_constant.orElse haccess)))))

theorem yields_primary : Yields (primary expr) Expr.WellFormed := by
  refine Yields.orElse (Yields.rule (Yields.located ?_) _) (yields_atom h)
  exact Yields.seq ((yields_true opUnary).map fun _ _ _ he _ => .unary he) (yields_atom h)

theorem yields_level (name : Rule) (operator : Parser BinaryOperator) :
    Yields (level name expr operator) Expr.WellFormed := by
  have hitem : Yields (Prod.mk <$> operator <*> expr) fun q => q.2.WellFormed :=
    Yields.seq ((yields_true operator).map fun _ _ _ he => he) h
  refine Yields.rule (Yields.located (Yields.seq (h.map ?_) hitem.many)) _
  intro first hfirst rest hrest line
  rw [chained]
  split
  · exact hfirst
  · exact .chain hfirst hrest

theorem yields_expressionOf : Yields (expressionOf expr) Expr.WellFormed :=
  (yields_level (yields_level (yields_level (yields_level (yields_level (yields_level (yields_level
    (yields_primary h) _ _) _ _) _ _) _ _) _ _) _ _) _ _).rule _

end Expressions

theorem parse_of_run {α : Type} {p : Parser α} {source : String} {a : α} (h : p.run source = .ok a) :
    ∃ d, p.parse (Cursor.start source) = some (a, d) := by
  rw [Parser.run] at h
  split at h
  · next a' d hd =>
    cases h
    exact ⟨d, hd⟩
  · cases h

/-- Whatever is read as a whole text is well formed. -/
theorem wellFormed_of_run {source : String} {tree : Expr}
    (h : standaloneExpression.run source = .ok tree) : tree.WellFormed := by
  have hyields : Yields standaloneExpression Expr.WellFormed := by
    refine Yields.rule (((yields_fix ?_).seqRight _).seqLeft _) _
    exact fun expr hexpr => yields_expressionOf hexpr
  obtain ⟨d, hd⟩ := parse_of_run h
  exact hyields _ _ _ hd

end Grammar
end GalecAudit
