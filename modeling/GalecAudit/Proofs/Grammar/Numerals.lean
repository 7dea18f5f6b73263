import GalecAudit.Proofs.Grammar.Lexing
import GalecAudit.Proofs.Grammar.Spacing

/-!
# Integer literals of texts

A text that is read as an expression has the same integer literals as its tree, in the same order and on
the same lines. So the first of them that is out of range decides what the text stands for.
-/
namespace GalecAudit

namespace Grammar

open Source Scanner

namespace Parser

variable {α β : Type} {p q : Parser α} {P : α → List Numeral → Prop}

/-- Behind trivia the parser reads constructs that fit the integer literals up to where it ends. -/
def Collects (p : Parser α) (P : α → List Numeral → Prop) : Prop :=
  ∀ (c : Cursor) a d, p.parse c.skip = some (a, d) →
    ∃ ns, P a ns ∧ numeralsFrom c = ns ++ numeralsFrom d

/-- The parser reads no integer literal. -/
def Silent (p : Parser α) : Prop := Collects p fun _ ns => ns = []

theorem Collects.map {f : α → β} {Q : β → List Numeral → Prop} (h : Collects p P)
    (hf : ∀ a ns, P a ns → Q (f a) ns) : Collects (f <$> p) Q := by
  intro c b d hd
  obtain ⟨a, ha, rfl⟩ := parse_map_eq_some_iff.1 hd
  obtain ⟨ns, hns, hc⟩ := h c a d ha
  exact ⟨ns, hf a ns hns, hc⟩

theorem Collects.seq {f : Parser (α → β)} {Q : β → List Numeral → Prop}
    (hf : Collects f fun g ns => ∀ a ms, P a ms → Q (g a) (ns ++ ms)) (hp : Collects p P) :
    Collects (f <*> p) Q := by
  intro c b d hd
  obtain ⟨g, next, a, hg, ha, rfl⟩ := parse_seq_eq_some_iff.1 hd
  obtain ⟨ns, hns, hc⟩ := hf c g next hg
  obtain ⟨ms, hms, hnext⟩ := hp next a d ha
  exact ⟨ns ++ ms, hns a ms hms, by rw [hc, hnext, List.append_assoc]⟩

theorem Collects.seqLeft {r : Parser β} (h : Collects p P) (hr : Silent r) : Collects (p <* r) P :=
  Collects.seq (h.map (f := fun a _ => a) fun a ns ha _ ms hms => by rwa [hms, List.append_nil]) hr

theorem Collects.seqRight {r : Parser β} (h : Collects p P) (hr : Silent r) : Collects (r *> p) P :=
  Collects.seq (hr.map (f := fun _ a => a) fun _ ns hns a ms ha => by rwa [hns, List.nil_append]) h

theorem Collects.orElse (hp : Collects p P) (hq : Collects q P) : Collects (p <|> q) P := by
  intro c a d hd
  rcases parse_orElse_eq_some_iff.1 hd with hd | ⟨-, hd⟩
  · exact hp c a d hd
  · exact hq c a d hd

theorem Collects.optional {f : α → List Numeral} (h : Collects p fun a ns => ns = f a) :
    Collects p.optional fun o ns => ns = o.elim [] f := by
  intro c o d hd
  rcases parse_optional_eq_some_iff.1 hd with ⟨a, ha, rfl⟩ | ⟨-, rfl, rfl⟩
  · exact h c a d ha
  · exact ⟨[], rfl, (numeralsFrom_skip c).symm⟩

theorem Collects.many {f : α → List Numeral} (h : Collects p fun a ns => ns = f a) :
    Collects p.many fun as ns => ns = as.flatMap f := by
  have hmany (c : Cursor) :
      numeralsFrom c = (p.readMany c).1.flatMap f ++ numeralsFrom (p.readMany c).2 := by
    fun_induction readMany p c with
    | case1 c a next hnext hlt rest last hrest ih =>
      obtain ⟨_, rfl, hc⟩ := h c a next hnext
      rw [hrest] at ih
      rw [hc, ih, List.flatMap_cons, List.append_assoc]
    | case2 c a next hnext hlt =>
      obtain ⟨_, rfl, hc⟩ := h c a next hnext
      rw [hc, List.flatMap_singleton]
    | case3 c hnone => rfl
  intro c as d hd
  have hread := hmany c.skip
  rw [parse_many_eq_some_iff.1 hd, numeralsFrom_skip] at hread
  exact ⟨_, rfl, hread⟩

theorem Collects.separated {f : α → List Numeral} {separator : Parser Unit}
    (h : Collects p fun a ns => ns = f a) (hs : Silent separator) :
    Collects (p.separated separator) fun as ns => ns = as.flatMap f :=
  Collects.seq (h.map fun a ns hns as ms hms => by rw [hns, hms, List.flatMap_cons])
    (h.seqRight hs).many

theorem Collects.located {f : Parser (Nat → α)} (h : Collects f fun g ns => ∀ line, P (g line) ns) :
    Collects f.located P := by
  intro c a d hd
  obtain ⟨g, hg, rfl⟩ := parse_located_eq_some_iff.1 hd
  obtain ⟨ns, hns, hc⟩ := h c g d hg
  exact ⟨ns, hns _, hc⟩

theorem Collects.quoted {f : Parser (String → α)} (h : Collects f fun g ns => ∀ s, P (g s) ns) :
    Collects f.quoted P := by
  intro c a d hd
  obtain ⟨g, hg, rfl⟩ := parse_quoted_eq_some_iff.1 hd
  obtain ⟨ns, hns, hc⟩ := h c g d hg
  exact ⟨ns, hns _, hc⟩

theorem Collects.rule (h : Collects p P) (name : Rule) : Collects (p.rule name) P := h

theorem silent_token {rule : Rule} {scan : Scanner} (h : Passes scan) : Silent (token rule scan) := by
  intro c a d hd
  obtain ⟨w, hw, rfl, rfl⟩ := parse_token_eq_some_iff.1 hd
  exact ⟨[], rfl, h c w hw⟩

theorem silent_literal {mark : String} (h : Passes (Scanner.text mark)) : Silent (literal mark) := by
  intro c a d hd
  obtain ⟨w, hw, rfl⟩ := parse_literal_eq_some_iff.1 hd
  exact ⟨[], rfl, h c w hw⟩

theorem silent_symbol {rule : Rule} {spellings : List (α × Scanner)}
    (h : ∀ p ∈ spellings, Passes p.2) : Silent (symbol rule spellings) := by
  intro c a d hd
  obtain ⟨w, hw, rfl⟩ := parse_symbol_eq_some_iff.1 hd
  obtain ⟨scan, hmem, hscan⟩ := exists_of_firstSpelling hw
  exact ⟨[], rfl, h _ hmem c w hscan⟩

theorem collects_fix {f : Parser α → Parser α} (h : ∀ p, Collects p P → Collects (f p) P) :
    Collects (fix f) P := by
  have hnested (depth : Nat) : Collects (nested f depth) P := by
    induction depth with
    | zero => exact fun _ _ _ hd => nomatch hd
    | succ depth ih => exact h _ ih
  exact fun c => hnested (c.skip.rest.length + 1) c

end Parser

open Grammar.Parser

section Words

theorem silent_name : Silent name :=
  (silent_token passes_quotedName).orElse (silent_token passes_ident)

theorem silent_reserved {rule : Rule} {word : String} (h : word ∈ keywords) :
    Silent (reserved rule word) :=
  (silent_token (passes_word h)).map fun _ _ hns => hns

theorem silent_mark {mark : String} (h : mark.toList.all isMark = true ∧
    mark.toList.tail.all isSolid = true) : Silent (literal mark) :=
  silent_literal (passes_text h)

theorem silent_opUnary : Silent opUnary :=
  silent_symbol (by simpa using ⟨passes_text (by decide), passes_word (by decide)⟩)

theorem silent_opPower : Silent opPower :=
  silent_symbol (by simpa using passes_text (by decide))

theorem silent_opMultiplicative : Silent opMultiplicative :=
  silent_symbol (by simpa using ⟨passes_text (by decide), passes_text (by decide)⟩)

theorem silent_opAdditive : Silent opAdditive :=
  silent_symbol (by simpa using ⟨passes_text (by decide), passes_text (by decide)⟩)

theorem silent_opRelational : Silent opRelational :=
  silent_symbol (by
    simpa using ⟨passes_text (by decide), passes_text (by decide),
      (passes_text (by decide)).notBefore _, passes_text (by decide)⟩)

theorem silent_opEquality : Silent opEquality :=
  silent_symbol (by simpa using ⟨passes_text (by decide), passes_text (by decide)⟩)

theorem silent_opAnd : Silent opAnd := silent_symbol (by simpa using passes_word (by decide))

theorem silent_opOr : Silent opOr := silent_symbol (by simpa using passes_word (by decide))

/-- A literal that is no integer literal. -/
theorem collects_literal {type : PrimitiveType} {rule : Rule} {scan : Scanner} (htype : type ≠ .integer)
    (h : Passes scan) :
    Collects (Expr.literal type <$> token rule scan) fun g ns => ∀ line, ns = (g line).numerals :=
  (silent_token h).map fun s ns hns line => by rw [hns, Expr.numerals, if_neg htype]

theorem collects_constant : Collects constant fun e ns => ns = e.numerals := by
  have hword : ∀ s ∈ ["true", "false"], s ∈ keywords := by decide
  have hboolean : PrimitiveType.boolean ≠ .integer := by decide
  have hreal : PrimitiveType.real ≠ .integer := by decide
  intro c e d hd
  obtain ⟨g, hg, rfl⟩ := parse_located_eq_some_iff.1 hd
  rcases parse_orElse_eq_some_iff.1 hg with hg | ⟨-, hg⟩
  · obtain ⟨ns, hns, hc⟩ := collects_literal hboolean (passes_wordOf hword) c g d hg
    exact ⟨ns, hns _, hc⟩
  rcases parse_orElse_eq_some_iff.1 hg with hg | ⟨hnone, hg⟩
  · obtain ⟨ns, hns, hc⟩ := collects_literal hreal passes_real c g d hg
    exact ⟨ns, hns _, hc⟩
  -- the line of an integer literal is that of the place where it is read
  · obtain ⟨s, hs, rfl⟩ := parse_map_eq_some_iff.1 hg
    obtain ⟨w, hw, rfl, rfl⟩ := parse_token_eq_some_iff.1 hs
    simp only [parse_map, token, leaf, Option.map_eq_none_iff] at hnone
    exact ⟨_, rfl, numeralsFrom_of_integer hnone hw⟩

end Words

section Expressions

variable {expr : Parser Expr} (h : Collects expr fun e ns => ns = e.numerals)
include h

theorem collects_reference : Collects (reference expr) fun a ns => ns = a.numerals := by
  have hsubscripts : Collects (subscripts expr) fun es ns => ns = es.flatMap Expr.numerals :=
    (((h.separated (silent_mark (by decide))).seqRight (silent_mark (by decide))).seqLeft
      (silent_mark (by decide))).rule _
  have hsegment : Collects (referenceSegment expr) fun s ns => ns = s.numerals := by
    refine Collects.rule (Collects.seq (silent_name.map ?_) hsubscripts.optional) _
    intro x ns hns o ms hms
    rw [hns, hms]
    cases o <;> rfl
  have hstate : Collects (stateReference expr) fun g ns => ∀ line, ns = (g line).numerals := by
    refine Collects.rule (Collects.map (((hsegment.separated (silent_mark (by decide))).seqRight
      ((silent_mark (by decide)).seqRight (silent_reserved (by decide))))) ?_) _
    exact fun segments ns hns _ => hns
  have hlocal : Collects (localReference expr) fun g ns => ∀ line, ns = (g line).numerals := by
    refine Collects.rule (hsegment.map ?_) _
    intro segment ns hns line
    rw [hns]
    exact (List.flatMap_singleton Segment.numerals segment).symm
  exact (hstate.orElse hlocal).located.rule _

theorem collects_arguments :
    Collects (separated expr (literal ",")) fun es ns => ns = es.flatMap Expr.numerals :=
  h.separated (silent_mark (by decide))

theorem collects_functionCall :
    Collects (functionCall expr) fun c ns => ns = c.args.flatMap Expr.numerals := by
  refine Collects.rule (Collects.located (Collects.seqLeft (Collects.seq (Collects.seqLeft
    (silent_name.map ?_) (silent_mark (by decide))) (collects_arguments h).optional)
    (silent_mark (by decide)))) _
  intro x ns hns o ms hms line
  rw [hns, hms]
  cases o <;> rfl

theorem collects_sizeQuery : Collects (sizeQuery expr) fun e ns => ns = e.numerals := by
  refine Collects.rule (Collects.located (Collects.seqLeft (Collects.seq (Collects.seqLeft
    (((collects_reference h).seqRight ((silent_mark (by decide)).seqRight
      (silent_reserved (by decide)))).map ?_) (silent_mark (by decide))) h)
    (silent_mark (by decide)))) _
  intro a ns hns dimension ms hms line
  rw [hns, hms, Expr.numerals_size]

theorem collects_arrayConstructor : Collects (arrayConstructor expr) fun e ns => ns = e.numerals := by
  refine Collects.rule (Collects.located (Collects.quoted (Collects.map
    (((collects_arguments h).seqRight (silent_mark (by decide))).seqLeft
      (silent_mark (by decide))) ?_))) _
  intro es ns hns text line
  rw [hns, Expr.numerals, listNumerals_eq_flatMap]

theorem collects_parenthesized : Collects (parenthesized expr) fun e ns => ns = e.numerals := by
  refine Collects.rule (Collects.located (Collects.map
    ((h.seqRight (silent_mark (by decide))).seqLeft (silent_mark (by decide))) ?_)) _
  exact fun e ns hns line => hns

theorem collects_ifExpression : Collects (ifExpression expr) fun e ns => ns = e.numerals := by
  have harm : Collects (elseifExpression expr) fun arm ns =>
      ns = arm.1.numerals ++ arm.2.numerals := by
    refine Collects.rule (Collects.seq (Collects.seqLeft
      ((h.seqRight (silent_reserved (by decide))).map ?_) (silent_reserved (by decide))) h) _
    exact fun c ns hns v ms hms => by rw [hns, hms]
  refine Collects.rule (Collects.located (Collects.seq (Collects.seqLeft (Collects.seq (Collects.seq
    (Collects.seqLeft ((h.seqRight (silent_reserved (by decide))).map ?_)
      (silent_reserved (by decide))) h) harm.many) (silent_reserved (by decide))) h)) _
  intro c cs hc v vs hv arms as ha o os ho line
  rw [hc, hv, ha, ho, Expr.numerals, armNumerals_eq_flatMap]

theorem collects_atom : Collects (atom expr) fun e ns => ns = e.numerals := by
  have hcall : Collects (Expr.call <$> functionCall expr) fun e ns => ns = e.numerals :=
    (collects_functionCall h).map fun c ns hns => by rw [hns, Expr.numerals_call]
  have haccess : Collects (Expr.access <$> reference expr) fun e ns => ns = e.numerals :=
    (collects_reference h).map fun a ns hns => by rw [hns, Expr.numerals_access]
  exact (collects_ifExpression h).orElse ((collects_parenthesized h).orElse
    ((collects_arrayConstructor h).orElse ((collects_sizeQuery h).orElse
      (hcall.orElse (collects_constant.orElse haccess)))))

theorem collects_primary : Collects (primary expr) fun e ns => ns = e.numerals := by
  refine Collects.orElse (Collects.rule (Collects.located (Collects.seq
    (silent_opUnary.map ?_) (collects_atom h))) _) (collects_atom h)
  intro op ns hns e ms hms line
  rw [hns, hms, List.nil_append, Expr.numerals]

theorem collects_level (name : Rule) {operator : Parser BinaryOperator} (ho : Silent operator) :
    Collects (level name expr operator) fun e ns => ns = e.numerals := by
  have hitem : Collects (Prod.mk <$> operator <*> expr) fun q ns => ns = q.2.numerals :=
    Collects.seq (ho.map fun op ns hns e ms hms => by rw [hns, hms, List.nil_append]) h
  refine Collects.rule (Collects.located (Collects.seq (h.map ?_) hitem.many)) _
  intro first ns hns rest ms hms line
  rw [hns, hms, chained]
  cases rest with
  | nil => exact List.append_nil _
  | cons q rest =>
    change _ = (Expr.chain first (q :: rest) line).numerals
    rw [Expr.numerals, chainNumerals_eq_flatMap]

theorem collects_expressionOf : Collects (expressionOf expr) fun e ns => ns = e.numerals := by
  have hpower := collects_level (collects_primary h) .powerExpression silent_opPower
  have hproduct := collects_level hpower .multiplicativeExpression silent_opMultiplicative
  have hsum := collects_level hproduct .additiveExpression silent_opAdditive
  have hrelation := collects_level hsum .relationalExpression silent_opRelational
  have hequality := collects_level hrelation .equalityExpression silent_opEquality
  have hconjunction := collects_level hequality .andExpression silent_opAnd
  exact (collects_level hconjunction .orExpression silent_opOr).rule .expression

end Expressions

/-- A text that is read as an expression has the integer literals of its tree. -/
theorem integerLiterals_of_parse {source : String} {tree : Expr} {d : Cursor}
    (h : standaloneExpression.parse (Cursor.start source) = some (tree, d)) :
    integerLiterals source = tree.numerals := by
  obtain ⟨last, hread, hend⟩ := exists_of_parse_whole h
  obtain ⟨_, rfl, hall⟩ := collects_fix (fun _ h => collects_expressionOf h) _ _ _ hread
  rw [integerLiterals, hall, numeralsFrom_of_eq_nil hend, List.append_nil]

end Grammar

open Grammar Source

theorem checks_readExpression {source : String} {tree : Expr}
    (h : standaloneExpression.run source = .ok tree) :
    ∃ x : Except InvalidLiteral Expression, Checks (integerLiterals source) x ∧
      readExpression source = x.mapError .invalidLiteral := by
  obtain ⟨d, hd⟩ := parse_of_run h
  rw [integerLiterals_of_parse hd]
  exact ⟨tree.resolve [], tree.checks_resolve, readExpression_of_parse hd⟩

/-- A text that the grammar accepts is an expression if its integer literals are 64-bit integers. Otherwise
the first of them that is none is the error. -/
theorem readExpression_ok_iff_inRange {source : String} {tree : Expr}
    (h : standaloneExpression.run source = .ok tree) :
    ((∃ e, readExpression source = .ok e) ↔ ∀ n ∈ integerLiterals source, n.InRange) ∧
    ∀ before n after, integerLiterals source = before ++ n :: after → (∀ m ∈ before, m.InRange) →
      ¬ n.InRange → readExpression source = .error (.invalidLiteral ⟨n.text, n.line⟩) := by
  obtain ⟨x, hx, hread⟩ := checks_readExpression h
  rw [hread]
  constructor
  · rw [← hx.exists_ok_iff]
    cases x with
    | ok e => exact iff_of_true ⟨e, rfl⟩ ⟨e, rfl⟩
    | error e => exact iff_of_false nofun nofun
  · intro before n after hsplit hbefore hn
    rw [hsplit] at hx
    rw [hx.eq_error hbefore hn]
    rfl

/-- The sum in the first subscript overflows, which is no error, and the second subscript is out of range. -/
def overflowingSource : String := "m[9223372036854775807 + 1,\n9223372036854775808]"

theorem readExpression_overflowingSource :
    (∃ tree, standaloneExpression.run overflowingSource = .ok tree) ∧
      readExpression overflowingSource = .error (.invalidLiteral ⟨"9223372036854775808", 2⟩) := by
  have hread : ∃ tree, standaloneExpression.run overflowingSource = .ok tree := by
    have hok : (standaloneExpression.run overflowingSource).isOk = true := by decide +kernel
    cases hrun : standaloneExpression.run overflowingSource with
    | ok tree => exact ⟨tree, rfl⟩
    | error e =>
      rw [hrun] at hok
      cases hok
  have hliterals : integerLiterals overflowingSource =
      [⟨"9223372036854775807", 1⟩, ⟨"1", 1⟩] ++ ⟨"9223372036854775808", 2⟩ :: [] := by
    decide +kernel
  obtain ⟨tree, hrun⟩ := hread
  exact ⟨⟨tree, hrun⟩, (readExpression_ok_iff_inRange hrun).2 _ _ _ hliterals (by decide +kernel)
    (by decide +kernel)⟩

end GalecAudit
