import GalecAudit.Proofs.Grammar.Agreement
import GalecAudit.Proofs.Grammar.Whole
import GalecAudit.Proofs.Source.Unlined

/-!
# Expressions in any layout

Each construct of the grammar of expressions agrees with itself: in two layouts of the same chunks it
reads the same tree up to lines and the texts of array constructors. So what an expression is read as
does not depend on how it is laid out.
-/
namespace GalecAudit.Grammar

open Source Grammar.Parser

section Trees

variable {α β : Type} {f : α → β}

/-- The same up to what a function drops. -/
abbrev Alike (f : α → β) (a a' : α) : Prop := f a = f a'

theorem map_eq_of_forall₂ {l l' : List α} (h : List.Forall₂ (Alike f) l l') : l.map f = l'.map f := by
  induction h with
  | nil => rfl
  | cons ha _ ih => rw [List.map_cons, List.map_cons, ha, ih]

theorem map_getD_eq_of_rel {o o' : Option (List α)}
    (h : Option.Rel (List.Forall₂ (Alike f)) o o') : (o.getD []).map f = (o'.getD []).map f := by
  cases h with
  | none => rfl
  | some hl => exact map_eq_of_forall₂ hl

theorem unlined_chained (first : Expr) (rest : List (BinaryOperator × Expr)) (line : Nat) :
    (chained first rest line).unlined =
      chained first.unlined (rest.map fun q => (q.1, q.2.unlined)) 0 := by
  cases rest with
  | nil => rfl
  | cons q rest =>
    change Expr.unlined (.chain first (q :: rest) line) = _
    rw [Expr.unlined, unlinedChain_eq_map]
    rfl

end Trees

variable {n n' : Nat}

section Words

theorem agrees_reserved {rule : Rule} {word : String}
    (h : word ≠ "" ∧ word.toList.all (fun c => !isSpace c) = true) :
    Agrees n n' 1 (reserved rule word) (reserved rule word) fun _ _ => True :=
  (agrees_token (isLexeme_word h)).map fun _ _ _ => trivial

theorem agrees_mark {mark : String}
    (h : mark ≠ "" ∧ mark.toList.all (fun c => !isSpace c) = true) :
    Agrees n n' 1 (literal mark) (literal mark) fun _ _ => True :=
  agrees_literal (isLexeme_text h)

theorem agrees_name : Agrees n n' 1 name name (· = ·) :=
  (agrees_token Lexeme.isLexeme_quotedName).orElse (agrees_token Lexeme.isLexeme_ident)

theorem agrees_opUnary : Agrees n n' 1 opUnary opUnary (· = ·) :=
  agrees_symbol (by simpa using ⟨isLexeme_text (by decide), isLexeme_word (by decide)⟩)

theorem agrees_opPower : Agrees n n' 1 opPower opPower (· = ·) :=
  agrees_symbol (by simpa using isLexeme_text (by decide))

theorem agrees_opMultiplicative : Agrees n n' 1 opMultiplicative opMultiplicative (· = ·) :=
  agrees_symbol (by simpa using ⟨isLexeme_text (by decide), isLexeme_text (by decide)⟩)

theorem agrees_opAdditive : Agrees n n' 1 opAdditive opAdditive (· = ·) :=
  agrees_symbol (by simpa using ⟨isLexeme_text (by decide), isLexeme_text (by decide)⟩)

theorem agrees_opRelational : Agrees n n' 1 opRelational opRelational (· = ·) := by
  have hless : IsLexeme ((Scanner.text "<").notBefore (· == '>')) :=
    (isLexeme_text (by decide)).notBefore (by decide)
  exact agrees_symbol (by
    simpa using ⟨isLexeme_text (by decide), isLexeme_text (by decide), hless,
      isLexeme_text (by decide)⟩)

theorem agrees_opEquality : Agrees n n' 1 opEquality opEquality (· = ·) :=
  agrees_symbol (by simpa using ⟨isLexeme_text (by decide), isLexeme_text (by decide)⟩)

theorem agrees_opAnd : Agrees n n' 1 opAnd opAnd (· = ·) :=
  agrees_symbol (by simpa using isLexeme_word (by decide))

theorem agrees_opOr : Agrees n n' 1 opOr opOr (· = ·) :=
  agrees_symbol (by simpa using isLexeme_word (by decide))

theorem agrees_constant : Agrees n n' 1 constant constant (Alike Expr.unlined) := by
  have htoken {type : PrimitiveType} {rule : Rule} {scan : Scanner} (h : IsLexeme scan) :
      Agrees n n' 1 (Expr.literal type <$> token rule scan) (Expr.literal type <$> token rule scan)
        fun g g' => ∀ l l', Alike Expr.unlined (g l) (g' l') :=
    (agrees_token h).map fun x x' hx l l' => by rw [hx]; rfl
  exact ((htoken (isLexeme_wordOf (by decide))).orElse
    ((htoken Lexeme.isLexeme_real).orElse (htoken Lexeme.isLexeme_integer))).located.rule _

end Words

section Expressions

variable {expr expr' : Parser Expr}

section Levels

variable (h : Agrees n n' 1 expr expr' (Alike Expr.unlined))
include h

theorem agrees_level (name : Rule) {operator : Parser BinaryOperator}
    (ho : ∀ m m', Agrees m m' 1 operator operator (· = ·)) :
    Agrees n n' 1 (level name expr operator) (level name expr' operator) (Alike Expr.unlined) := by
  have hitem : Agrees (n - 1) (n' - 1) 1 (Prod.mk <$> operator <*> expr)
      (Prod.mk <$> operator <*> expr') (Alike fun q => (q.1, q.2.unlined)) := by
    refine Agrees.seq ((ho _ _).map ?_) h.behind.behind.weaken
    exact fun op op' hop e e' he => congrArg₂ Prod.mk hop he
  refine Agrees.rule (Agrees.located (Agrees.seq (h.map ?_) hitem.many)) _
  intro first first' hfirst rest rest' hrest l l'
  rw [Alike, unlined_chained, unlined_chained, hfirst, map_eq_of_forall₂ hrest]

end Levels

variable (h : Agrees (n - 1) (n' - 1) 1 expr expr' (Alike Expr.unlined))
include h

theorem agrees_subscripts :
    Agrees n n' 1 (subscripts expr) (subscripts expr') (List.Forall₂ (Alike Expr.unlined)) :=
  Agrees.rule (((agrees_mark (by decide)).seqRight
    (h.separated (agrees_mark (by decide))).weaken).seqLeft (agrees_mark (by decide)).weaken) _

theorem agrees_referenceSegment :
    Agrees n n' 1 (referenceSegment expr) (referenceSegment expr') (Alike Segment.unlined) := by
  have hsubscripts := agrees_subscripts h.behind
  refine Agrees.rule (Agrees.seq (agrees_name.map ?_) hsubscripts.optional) _
  intro name name' hname o o' ho
  rw [Alike, Segment.unlined, Segment.unlined, hname, map_getD_eq_of_rel ho]

theorem agrees_reference :
    Agrees n n' 1 (reference expr) (reference expr') (Alike Access.unlined) := by
  have hstate : Agrees n n' 1 (stateReference expr) (stateReference expr')
      fun g g' => ∀ l l', Alike Access.unlined (g l) (g' l') := by
    have hsegment := agrees_referenceSegment h.behind
    refine Agrees.rule (Agrees.map (((agrees_reserved (by decide)).seqRight
      (agrees_mark (by decide)).weaken).seqRight
        (hsegment.separated (agrees_mark (by decide))).weaken) ?_) _
    intro segments segments' hs l l'
    rw [Alike, Access.unlined, Access.unlined, map_eq_of_forall₂ hs]
  have hlocal : Agrees n n' 1 (localReference expr) (localReference expr')
      fun g g' => ∀ l l', Alike Access.unlined (g l) (g' l') := by
    refine Agrees.rule ((agrees_referenceSegment h).map ?_) _
    intro s s' hs l l'
    rw [Alike, Access.unlined, Access.unlined, List.map_singleton, List.map_singleton, hs]
  exact (hstate.orElse hlocal).located.rule _

theorem agrees_functionCall :
    Agrees n n' 1 (functionCall expr) (functionCall expr') (Alike Call.unlined) := by
  refine Agrees.rule (Agrees.located (Agrees.seqLeft (Agrees.seq (Agrees.seqLeft
    (agrees_name.map ?_) (agrees_mark (by decide)).weaken)
    (h.separated (agrees_mark (by decide))).optional) (agrees_mark (by decide)).weaken)) _
  intro name name' hname o o' ho l l'
  rw [Alike, Call.unlined, Call.unlined, hname, map_getD_eq_of_rel ho]

theorem agrees_sizeQuery :
    Agrees n n' 1 (sizeQuery expr) (sizeQuery expr') (Alike Expr.unlined) := by
  have hreference := agrees_reference h.behind
  refine Agrees.rule (Agrees.located (Agrees.seqLeft (Agrees.seq (Agrees.seqLeft
    (Agrees.map (((agrees_reserved (by decide)).seqRight (agrees_mark (by decide)).weaken).seqRight
      hreference.weaken) ?_) (agrees_mark (by decide)).weaken) h.weaken)
    (agrees_mark (by decide)).weaken)) _
  intro a a' ha d d' hd l l'
  rw [Alike, Expr.unlined_size, Expr.unlined_size, ha, hd]

theorem agrees_arrayConstructor :
    Agrees n n' 1 (arrayConstructor expr) (arrayConstructor expr') (Alike Expr.unlined) := by
  refine Agrees.rule (Agrees.located (Agrees.quoted (Agrees.map (((agrees_mark (by decide)).seqRight
    (h.separated (agrees_mark (by decide))).weaken).seqLeft (agrees_mark (by decide)).weaken) ?_))) _
  intro es es' hes text text' l l'
  rw [Alike, Expr.unlined, Expr.unlined, unlinedAll_eq_map, unlinedAll_eq_map,
    map_eq_of_forall₂ hes]

theorem agrees_parenthesized :
    Agrees n n' 1 (parenthesized expr) (parenthesized expr') (Alike Expr.unlined) := by
  refine Agrees.rule (Agrees.located (Agrees.map (((agrees_mark (by decide)).seqRight
    h.weaken).seqLeft (agrees_mark (by decide)).weaken) ?_)) _
  intro e e' he l l'
  rw [Alike, Expr.unlined, Expr.unlined, he]

theorem agrees_elseifExpression :
    Agrees n n' 1 (elseifExpression expr) (elseifExpression expr')
      (Alike fun arm => (arm.1.unlined, arm.2.unlined)) := by
  refine Agrees.rule (Agrees.seq (Agrees.seqLeft (Agrees.map
    ((agrees_reserved (by decide)).seqRight h.weaken) ?_) (agrees_reserved (by decide)).weaken)
    h.weaken) _
  exact fun c c' hc v v' hv => congrArg₂ Prod.mk hc hv

theorem agrees_ifExpression :
    Agrees n n' 1 (ifExpression expr) (ifExpression expr') (Alike Expr.unlined) := by
  have harm := agrees_elseifExpression h.behind
  refine Agrees.rule (Agrees.located (Agrees.seq (Agrees.seqLeft (Agrees.seq (Agrees.seq
    (Agrees.seqLeft (Agrees.map ((agrees_reserved (by decide)).seqRight h.weaken) ?_)
      (agrees_reserved (by decide)).weaken) h.weaken) harm.many)
    (agrees_reserved (by decide)).weaken) h.weaken)) _
  intro c c' hc v v' hv arms arms' harms o o' ho l l'
  rw [Alike, Expr.unlined, Expr.unlined, unlinedArms_eq_map, unlinedArms_eq_map, hc, hv, ho,
    map_eq_of_forall₂ harms]

theorem agrees_atom : Agrees n n' 1 (atom expr) (atom expr') (Alike Expr.unlined) := by
  have hcall : Agrees n n' 1 (Expr.call <$> functionCall expr) (Expr.call <$> functionCall expr')
      (Alike Expr.unlined) :=
    (agrees_functionCall h).map fun c c' hc => by
      rw [Alike, Expr.unlined_call, Expr.unlined_call, hc]
  have haccess : Agrees n n' 1 (Expr.access <$> reference expr) (Expr.access <$> reference expr')
      (Alike Expr.unlined) :=
    (agrees_reference h).map fun a a' ha => by
      rw [Alike, Expr.unlined_access, Expr.unlined_access, ha]
  exact (agrees_ifExpression h).orElse ((agrees_parenthesized h).orElse
    ((agrees_arrayConstructor h).orElse ((agrees_sizeQuery h).orElse
      (hcall.orElse (agrees_constant.orElse haccess)))))

theorem agrees_primary : Agrees n n' 1 (primary expr) (primary expr') (Alike Expr.unlined) := by
  refine Agrees.orElse (Agrees.rule (Agrees.located (Agrees.seq (agrees_opUnary.map ?_)
    (agrees_atom h).behind.weaken)) _) (agrees_atom h)
  intro op op' hop e e' he l l'
  rw [Alike, Expr.unlined, Expr.unlined, hop, he]

theorem agrees_expressionOf :
    Agrees n n' 1 (expressionOf expr) (expressionOf expr') (Alike Expr.unlined) := by
  have hpower := agrees_level (agrees_primary h) .powerExpression fun _ _ => agrees_opPower
  have hproduct := agrees_level hpower .multiplicativeExpression fun _ _ => agrees_opMultiplicative
  have hsum := agrees_level hproduct .additiveExpression fun _ _ => agrees_opAdditive
  have hrelation := agrees_level hsum .relationalExpression fun _ _ => agrees_opRelational
  have hequality := agrees_level hrelation .equalityExpression fun _ _ => agrees_opEquality
  have hconjunction := agrees_level hequality .andExpression fun _ _ => agrees_opAnd
  exact (agrees_level hconjunction .orExpression fun _ _ => agrees_opOr).rule .expression

end Expressions

theorem agrees_standaloneExpression :
    Agrees n n' 0 standaloneExpression standaloneExpression (Alike Expr.unlined) :=
  ((agrees_nothing.seqRight (agrees_fix fun _ _ _ _ h => agrees_expressionOf h).weaken).seqLeft
    agrees_endOfInput).rule _

/-- A byte order mark is no blank, so it stands at the starts of both texts or of none. -/
theorem aligned_start {source source' : String} (h : Aligned source.toList source'.toList) :
    Aligned (Cursor.start source).rest (Cursor.start source').rest := by
  generalize hcs : source.toList = cs at h
  generalize hcs' : source'.toList = cs' at h
  cases h with
  | nil =>
    rw [Cursor.start, Cursor.start, hcs, hcs']
    exact .nil
  | @solid c rest rest' notBlank first second behind =>
    by_cases hmark : c = '\ufeff'
    · rw [Cursor.start, Cursor.start, hcs, hcs', hmark]
      exact behind
    · have hne (tail : List Char) : Starts (· != '\ufeff') (c :: tail) := bne_iff_ne.2 hmark
      rw [rest_start rfl (hcs ▸ hne rest), rest_start rfl (hcs' ▸ hne rest'), hcs, hcs']
      exact .solid notBlank first second behind
  | gap first second behind =>
    rw [rest_start rfl (hcs ▸ first), rest_start rfl (hcs' ▸ second), hcs, hcs']
    exact .gap first second behind

end Grammar

open Grammar Source

instance : Inhabited Separator where
  default := ⟨[.blank ' ' rfl], rfl, rfl⟩

/-- Two sources are read the same: as expressions that differ in lines only, as the same invalid literal
on whatever line, or both are refused. -/
inductive SameReading : Except SourceError Expression → Except SourceError Expression → Prop
  | read {e e' : Expression} (tree : e.unlined = e'.unlined) : SameReading (.ok e) (.ok e')
  | invalidLiteral {e e' : InvalidLiteral} (text : e.text = e'.text) :
      SameReading (.error (.invalidLiteral e)) (.error (.invalidLiteral e'))
  | refused (e e' : SyntaxError) : SameReading (.error (.refused e)) (.error (.refused e'))

theorem readExpression_of_parse {source : String} {tree : Expr} {d : Cursor}
    (h : standaloneExpression.parse (Cursor.start source) = some (tree, d)) :
    readExpression source = (tree.resolve []).mapError .invalidLiteral := by
  have hrun := run_eq_ok h
  unfold readExpression
  simp only [hrun]
  cases tree.resolve [] <;> rfl

theorem readExpression_of_parse_eq_none {source : String}
    (h : standaloneExpression.parse (Cursor.start source) = none) :
    ∃ e, readExpression source = .error (.refused e) := by
  unfold readExpression
  simp only [Parser.run, h]
  exact ⟨_, rfl⟩

/-- Trees that differ in their lines only stand for the same. -/
theorem sameReading_of_unlined {tree tree' : Expr} (h : tree.unlined = tree'.unlined) :
    SameReading ((tree.resolve []).mapError .invalidLiteral)
      ((tree'.resolve []).mapError .invalidLiteral) := by
  have hsame : dropLines Expression.unlined (tree.resolve []) =
      dropLines Expression.unlined (tree'.resolve []) := by
    rw [← Expr.resolve_unlined, ← Expr.resolve_unlined, h]
  cases hr : tree.resolve [] with
  | error e =>
    cases hr' : tree'.resolve [] with
    | error e' =>
      rw [hr, hr'] at hsame
      have hunlined : e.unlined = e'.unlined := Except.error.inj hsame
      exact .invalidLiteral (InvalidLiteral.mk.inj hunlined).1
    | ok e' =>
      rw [hr, hr'] at hsame
      cases hsame
  | ok e =>
    cases hr' : tree'.resolve [] with
    | error e' =>
      rw [hr, hr'] at hsame
      cases hsame
    | ok e' =>
      rw [hr, hr'] at hsame
      have hunlined : e.unlined = e'.unlined := Except.ok.inj hsame
      exact .read hunlined

theorem sameReading_of_aligned {source source' : String}
    (h : Aligned source.toList source'.toList) :
    SameReading (readExpression source) (readExpression source') := by
  rcases agrees_standaloneExpression (Cursor.start source) (Cursor.start source')
      (Nat.lt_succ_self _) (Nat.lt_succ_self _) (aligned_start h) with
    ⟨hp, hp'⟩ | ⟨⟨tree, d⟩, ⟨tree', d'⟩, hp, hp', hr⟩
  · obtain ⟨e, he⟩ := readExpression_of_parse_eq_none hp
    obtain ⟨e', he'⟩ := readExpression_of_parse_eq_none hp'
    rw [he, he']
    exact .refused e e'
  · rw [readExpression_of_parse hp, readExpression_of_parse hp']
    exact sameReading_of_unlined hr.value

/-- Comments and layout never change an expression: whichever separators stand between the chunks of a
text, it is read the same. -/
theorem readExpression_layOut (gaps gaps' : Nat → Separator) (chunks : List Chunk) :
    SameReading (readExpression (String.ofList (layOut gaps chunks)))
      (readExpression (String.ofList (layOut gaps' chunks))) := by
  refine sameReading_of_aligned ?_
  rw [String.toList_ofList, String.toList_ofList]
  exact aligned_layOut gaps gaps' chunks

end GalecAudit
