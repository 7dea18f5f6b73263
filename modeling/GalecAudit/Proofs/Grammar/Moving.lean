import GalecAudit.Proofs.Grammar.Spelling

/-!
# Moving on in a text

Every parser of the grammar reads a text at its cursor and moves on to the text behind it. So all that is
read of a document is read at places of the document.
-/
namespace GalecAudit.Grammar

open Source Grammar.Parser

section Words

theorem moves_ident : Moves ident := moves_token Lexeme.isLexeme_ident.fits

theorem moves_name : Moves name := (moves_token Lexeme.isLexeme_quotedName.fits).orElse moves_ident

theorem moves_reserved (rule : Rule) (word : String) : Moves (reserved rule word) :=
  (moves_token (fits_word word)).map _

theorem moves_constant : Moves constant :=
  (((moves_token (fits_wordOf _)).map _).orElse (((moves_token Lexeme.isLexeme_real.fits).map _).orElse
    ((moves_token Lexeme.isLexeme_integer.fits).map _))).located.rule _

end Words

section Expressions

variable {expr : Parser Expr} (h : Moves expr)
include h

theorem moves_list : Moves (separated expr (literal ",")) := h.separated (moves_literal _)

theorem moves_reference : Moves (reference expr) := by
  have hsubscripts : Moves (subscripts expr) :=
    (((moves_literal _).seqRight (moves_list h)).seqLeft (moves_literal _)).rule _
  have hsegment : Moves (referenceSegment expr) :=
    ((moves_name.map _).seq hsubscripts.optional).rule _
  have hstate : Moves (stateReference expr) :=
    ((((moves_reserved _ _).seqRight (moves_literal _)).seqRight
      (hsegment.separated (moves_literal _))).map _).rule _
  exact (hstate.orElse ((hsegment.map _).rule _)).located.rule _

theorem moves_functionCall : Moves (functionCall expr) :=
  (((((moves_name.map _).seqLeft (moves_literal _)).seq (moves_list h).optional).seqLeft
    (moves_literal _)).located).rule _

theorem moves_sizeQuery : Moves (sizeQuery expr) :=
  ((((((((moves_reserved _ _).seqRight (moves_literal _)).seqRight (moves_reference h)).map _).seqLeft
    (moves_literal _)).seq h).seqLeft (moves_literal _)).located).rule _

theorem moves_arrayConstructor : Moves (arrayConstructor expr) :=
  (((((moves_literal _).seqRight (moves_list h)).seqLeft (moves_literal _)).map _).quoted.located).rule _

theorem moves_parenthesized : Moves (parenthesized expr) :=
  ((((moves_literal _).seqRight h).seqLeft (moves_literal _)).map _).located.rule _

theorem moves_ifExpression : Moves (ifExpression expr) := by
  have harm : Moves (elseifExpression expr) :=
    (((((moves_reserved _ _).seqRight h).map _).seqLeft (moves_reserved _ _)).seq h).rule _
  exact (((((((((moves_reserved _ _).seqRight h).map _).seqLeft (moves_reserved _ _)).seq h).seq
    harm.many).seqLeft (moves_reserved _ _)).seq h).located).rule _

theorem moves_atom : Moves (atom expr) :=
  (moves_ifExpression h).orElse ((moves_parenthesized h).orElse ((moves_arrayConstructor h).orElse
    ((moves_sizeQuery h).orElse (((moves_functionCall h).map _).orElse
      (moves_constant.orElse ((moves_reference h).map _))))))

theorem moves_primary : Moves (primary expr) :=
  (((((moves_symbol (by simp)).map _).seq (moves_atom h)).located).rule _).orElse (moves_atom h)

theorem moves_level (name : Rule) (operator : Parser BinaryOperator) (ho : Moves operator) :
    Moves (level name expr operator) :=
  (((h.map _).seq ((ho.map _).seq h).many).located).rule _

theorem moves_expressionOf : Moves (expressionOf expr) := by
  have hpower := moves_level (moves_primary h) .powerExpression opPower (moves_symbol (by simp))
  have hproduct := moves_level hpower .multiplicativeExpression opMultiplicative (moves_symbol (by simp))
  have hsum := moves_level hproduct .additiveExpression opAdditive (moves_symbol (by simp))
  have hrelation := moves_level hsum .relationalExpression opRelational (moves_symbol (by simp))
  have hequality := moves_level hrelation .equalityExpression opEquality (moves_symbol (by simp))
  have hconjunction := moves_level hequality .andExpression opAnd (moves_symbol (by simp))
  exact (moves_level hconjunction .orExpression opOr (moves_symbol (by simp))).rule .expression

end Expressions

theorem moves_expression : Moves expression := moves_fix fun _ h => moves_expressionOf h

section Statements

theorem moves_singleAssignment : Moves singleAssignment :=
  (((((moves_reference moves_expression).map _).seqLeft (moves_literal _)).seq
    moves_expression).located).rule _

theorem moves_multiAssignment : Moves multiAssignment := by
  have htargets := (moves_reference moves_expression).separated (moves_literal ",")
  exact (((((((moves_literal _).seqRight htargets).map _).seqLeft (moves_literal _)).seqLeft
    (moves_literal _)).seq (moves_functionCall moves_expression)).located).rule _

theorem moves_callStatement : Moves callStatement :=
  ((moves_functionCall moves_expression).map _).located.rule _

theorem moves_signalStatement : Moves signalStatement :=
  (((moves_reserved _ _).seqRight (moves_ident.separated (moves_literal _))).map _).located.rule _

theorem moves_limitStatement : Moves limitStatement := by
  have htarget : Moves limitTarget :=
    (((moves_reference moves_expression).map _).orElse ((moves_reserved _ _).map _)).rule _
  exact (((moves_reserved _ _).seqRight (htarget.separated (moves_literal _))).map _).located.rule _

theorem moves_condition : Moves condition := by
  have hmembership : Moves signalMembership :=
    ((((moves_reserved _ _).optional.map _).seqLeft (moves_reserved _ _)).seq
      (moves_ident.separated (moves_literal _))).rule _
  have hsignal : Moves signalCondition :=
    ((((((moves_reserved _ _).seqRight moves_ident.optional).map _).seq hmembership.optional).seq
      ((moves_symbol (by simp)).seqRight moves_expression).optional).located).rule _
  exact (hsignal.orElse (moves_expression.map _)).rule _

theorem moves_loopHeader : Moves loopHeader := by
  have hiterator : Moves loopIterator := moves_ident.rule _
  have hbound := (moves_literal ":").seqRight moves_expression
  exact ((((((hiterator.seqLeft (moves_reserved _ _)).optional.map _).seq moves_expression).seqLeft
    (moves_literal _)).seq moves_expression).seq hbound.optional).quoted.rule _

variable {inner : Parser Statement} (h : Moves inner)
include h

theorem moves_ifStatement : Moves (ifStatement inner) := by
  have helseif : Moves (elseifBranch inner) :=
    (((((moves_reserved _ _).seqRight moves_condition).map _).seqLeft (moves_reserved _ _)).seq
      h.many).rule _
  have helse : Moves (elseBranch inner) := ((moves_reserved _ _).seqRight h.many).rule _
  exact (((((((((moves_reserved _ _).seqRight moves_condition).map _).seqLeft
    (moves_reserved _ _)).seq h.many).seq helseif.many).seq helse.optional).seqLeft
      (moves_reserved _ _)).seqLeft (moves_reserved _ _)).rule _

theorem moves_forStatement : Moves (forStatement inner) :=
  (((((((moves_reserved _ _).seqRight moves_loopHeader).map _).seqLeft (moves_reserved _ _)).seq
    h.many).seqLeft (moves_reserved _ _)).seqLeft (moves_reserved _ _)).located.rule _

theorem moves_statementOf : Moves (statementOf inner) :=
  (((moves_ifStatement h).orElse ((moves_forStatement h).orElse (moves_signalStatement.orElse
    (moves_limitStatement.orElse (moves_multiAssignment.orElse (moves_singleAssignment.orElse
      moves_callStatement)))))).seqLeft (moves_literal _)).rule _

end Statements

theorem moves_statement : Moves statement := moves_fix fun _ h => moves_statementOf h

/-- The second place is one of the text that starts at the first one. -/
def Cursor.Reaches (c d : Cursor) : Prop := ∃ w, c.Spans w d

namespace Cursor

variable {c d e : Cursor}

theorem reaches_refl (c : Cursor) : c.Reaches c := ⟨[], c.spans_nil⟩

theorem Reaches.trans (h : c.Reaches d) (hd : d.Reaches e) : c.Reaches e := by
  obtain ⟨u, hu⟩ := h
  obtain ⟨w, hw⟩ := hd
  exact ⟨u ++ w, hu.append hw⟩

theorem Reaches.skip (h : c.Reaches d) : c.Reaches d.skip := h.trans ⟨_, d.spans_skip⟩

end Cursor

namespace Parser

/-! What is read of a document that a parser moves on in. -/

variable {α β : Type} {start : Cursor} {p q : Parser α} {P : α → Prop}

/-- From a place of the document the parser moves on to a place of it, and what it reads there has a
property. -/
def ReadsIn (start : Cursor) (p : Parser α) (P : α → Prop) : Prop :=
  ∀ (c : Cursor) a d, trivia c.rest = [] → start.Reaches c → p.parse c = some (a, d) →
    start.Reaches d ∧ P a

theorem Moves.readsIn (h : Moves p) : ReadsIn start p fun _ => True := by
  intro c a d hc hplace hd
  obtain ⟨w, hw, -⟩ := h c a d hc hd
  exact ⟨hplace.trans ⟨w, hw⟩, trivial⟩

/-- A construct with the line on which it starts stands on that line of the document. -/
theorem Spells.readsIn_located {f : Parser (Nat → α)} {P : α → Nat → List Char → Prop}
    (h : Spells f fun g w => ∀ line, P (g line) line w) :
    ReadsIn start f.located fun a => ∃ front w behind, start.rest = front ++ (w ++ behind) ∧
      P a (start.line + front.count '\n') w := by
  intro c a d hc hplace hd
  obtain ⟨g, hg, rfl⟩ := parse_located_eq_some_iff.1 hd
  obtain ⟨w, hw, hP⟩ := h c g d hc hg
  refine ⟨hplace.trans ⟨w, hw⟩, ?_⟩
  obtain ⟨front, hfront⟩ := hplace
  refine ⟨front, w, d.rest, ?_, ?_⟩
  · rw [← hw.rest]
    exact hfront.rest
  · rw [← hfront.line]
    exact hP _

theorem ReadsIn.map {f : α → β} {Q : β → Prop} (h : ReadsIn start p P) (hf : ∀ a, P a → Q (f a)) :
    ReadsIn start (f <$> p) Q := by
  intro c b d hc hplace hd
  obtain ⟨a, ha, rfl⟩ := parse_map_eq_some_iff.1 hd
  obtain ⟨hafter, hP⟩ := h c a d hc hplace ha
  exact ⟨hafter, hf a hP⟩

theorem ReadsIn.seq {f : Parser (α → β)} {Q : β → Prop}
    (hf : ReadsIn start f fun g => ∀ a, P a → Q (g a)) (hp : ReadsIn start p P) :
    ReadsIn start (f <*> p) Q := by
  intro c b d hc hplace hd
  obtain ⟨g, next, a, hg, ha, rfl⟩ := parse_seq_eq_some_iff.1 hd
  obtain ⟨hnext, hQ⟩ := hf c g next hc hplace hg
  obtain ⟨hlast, hP⟩ := hp next.skip a d next.trivia_skip hnext.skip ha
  exact ⟨hlast, hQ a hP⟩

theorem ReadsIn.seqLeft {r : Parser β} (h : ReadsIn start p P) (hr : Moves r) :
    ReadsIn start (p <* r) P :=
  ReadsIn.seq (h.map (f := fun a _ => a) fun _ ha _ _ => ha) hr.readsIn

theorem ReadsIn.seqRight {r : Parser β} (hr : Moves r) (h : ReadsIn start p P) :
    ReadsIn start (r *> p) P :=
  ReadsIn.seq (hr.readsIn.map (f := fun _ a => a) fun _ _ _ ha => ha) h

theorem ReadsIn.orElse (hp : ReadsIn start p P) (hq : ReadsIn start q P) :
    ReadsIn start (p <|> q) P := by
  intro c a d hc hplace hd
  rcases parse_orElse_eq_some_iff.1 hd with hd | ⟨-, hd⟩
  · exact hp c a d hc hplace hd
  · exact hq c a d hc hplace hd

theorem ReadsIn.optional (h : ReadsIn start p P) :
    ReadsIn start p.optional fun o => ∀ a ∈ o, P a := by
  intro c o d hc hplace hd
  rcases parse_optional_eq_some_iff.1 hd with ⟨a, ha, rfl⟩ | ⟨-, rfl, rfl⟩
  · obtain ⟨hafter, hP⟩ := h c a d hc hplace ha
    exact ⟨hafter, fun b hb => Option.some.inj hb ▸ hP⟩
  · exact ⟨hplace, nofun⟩

theorem ReadsIn.many (h : ReadsIn start p P) :
    ReadsIn start p.many fun as => ∀ a ∈ as, P a := by
  have hmany (c : Cursor) (hplace : start.Reaches c) :
      start.Reaches (p.readMany c).2 ∧ ∀ a ∈ (p.readMany c).1, P a := by
    fun_induction readMany p c with
    | case1 c a next hnext hlt rest last hrest ih =>
      obtain ⟨hafter, ha⟩ := h _ a next c.trivia_skip hplace.skip hnext
      have hall := ih hafter
      rw [hrest] at hall
      exact ⟨hall.1, List.forall_mem_cons.2 ⟨ha, hall.2⟩⟩
    | case2 c a next hnext hlt =>
      obtain ⟨hafter, ha⟩ := h _ a next c.trivia_skip hplace.skip hnext
      exact ⟨hafter, List.forall_mem_singleton.2 ha⟩
    | case3 c hnone => exact ⟨hplace, List.forall_mem_nil _⟩
  intro c as d hc hplace hd
  have hall := hmany c hplace
  rwa [parse_many_eq_some_iff.1 hd] at hall

theorem ReadsIn.located {f : Parser (Nat → α)}
    (h : ReadsIn start f fun g => ∀ line, P (g line)) : ReadsIn start f.located P := by
  intro c a d hc hplace hd
  obtain ⟨g, hg, rfl⟩ := parse_located_eq_some_iff.1 hd
  obtain ⟨hafter, hP⟩ := h c g d hc hplace hg
  exact ⟨hafter, hP _⟩

theorem ReadsIn.rule (h : ReadsIn start p P) (name : Rule) : ReadsIn start (p.rule name) P := h

end Parser

end GalecAudit.Grammar
