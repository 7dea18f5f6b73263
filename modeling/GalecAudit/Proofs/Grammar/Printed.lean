import GalecAudit.Proofs.Grammar.Subscripts

/-!
# Printed constructs

How the texts of calls, arrays, size queries and choices are read, if the texts of their parts are.
-/
namespace GalecAudit.Grammar

open Source Grammar.Parser

variable {expr : Parser Expr} {cs rest : List Char} {e c v o : Expression} {es : List Expression}

/-- The text of an expression is read as what it shows. -/
structure ReadsText (expr : Parser Expr) (e : Expression) : Prop where
  starts : Starts startsOperand e.text.toList
  reads : ∀ rest, Stops rest → Reads expr (e.text.toList ++ rest) (·.Means e.shown) rest

/-- What is read from the text of an expression behind trivia. -/
theorem ReadsText.reads_pastTrivia (h : ReadsText expr e) (hrest : Stops rest) :
    Reads expr (pastTrivia (e.text.toList ++ rest)) (·.Means e.shown) rest := by
  rw [pastTrivia_of_starts h.starts]
  exact h.reads rest hrest

section Refusals

/-- Where nothing begins that an operand begins with, there is no expression. -/
theorem refuses_expressionOf (h : Ends startsOperand cs) : Refuses (expressionOf expr) cs := by
  have hletter : Ends Char.isAlpha cs := h.of_imp fun c hc =>
    startsOperand_of_startsName (by rw [startsName, hc, Bool.true_or])
  have hminus : Ends (· == '-') cs := h.of_imp fun c hc => beq_iff_eq.1 hc ▸ rfl
  have hunary : Refuses opUnary cs := refuses_opUnary (noKeyword_of_ends hletter _ (by decide)) hminus
  exact refuses_expressionOf_of_primary ((hunary.map.seq.located.rule _).orElse (refuses_atom h))

end Refusals

section Lists

theorem toList_intercalate_texts (es : List Expression) :
    (", ".intercalate (Expression.listTexts es)).toList =
      [',', ' '].intercalate (es.map fun e => e.text.toList) := by
  rw [Expression.listTexts_eq_map, String.toList_intercalate, List.map_map]
  rfl

theorem starts_intercalate_texts (hne : es ≠ [])
    (h : ∀ e ∈ es, ReadsText expr e) :
    Starts startsOperand (", ".intercalate (Expression.listTexts es)).toList := by
  obtain ⟨e, es, rfl⟩ := List.exists_cons_of_ne_nil hne
  obtain ⟨he, -⟩ := List.forall_mem_cons.1 h
  rw [toList_intercalate_texts, intercalate_comma]
  exact he.starts.append _

/-- Expressions with a comma and a blank between each two. -/
theorem reads_texts (hne : es ≠ []) (h : ∀ e ∈ es, ReadsText expr e) (hrest : Stops rest)
    (hend : Ends (· == ',') (pastTrivia rest)) :
    Reads (separated expr (literal ","))
      (pastTrivia ((", ".intercalate (Expression.listTexts es)).toList ++ rest))
      (List.Forall₂ (fun e (tree : Expr) => tree.Means e) (es.map Expression.shown)) rest := by
  have hgap (cs : List Char) : pastTrivia ([' '] ++ cs) = pastTrivia cs := pastTrivia_space cs
  have hcomma (cs : List Char) : Stops (',' :: cs) := stops_of_isSolid rfl rfl rfl cs
  rw [pastTrivia_of_starts (starts_intercalate_texts hne h), toList_intercalate_texts]
  refine (reads_separated hne hgap (fun e he => pastTrivia_of_starts (h e he).starts)
    (fun e he => (h e he).reads) hcomma hrest (text_eq_none rfl hend)).mono fun trees htrees => ?_
  exact List.forall₂_map_left_iff.2 htrees

end Lists

section Calls

variable {x : String}

/-- The arguments of a call, which may be none. -/
theorem reads_arguments (hnone : Refuses expr (')' :: rest)) (h : ∀ e ∈ es, ReadsText expr e) :
    Reads (optional (separated expr (literal ",")))
      (pastTrivia ((", ".intercalate (Expression.listTexts es)).toList ++ ')' :: rest))
      (fun trees => List.Forall₂ (fun e (tree : Expr) => tree.Means e) (es.map Expression.shown)
        (trees.getD [])) (')' :: rest) := by
  cases es with
  | nil =>
    change Reads _ (pastTrivia (')' :: rest)) _ _
    rw [pastTrivia_of_isSolid rfl]
    exact hnone.map.seq.optional .nil
  | cons e es =>
    have hstop : Stops (')' :: rest) := stops_of_isSolid rfl rfl rfl rest
    exact (reads_texts (List.cons_ne_nil e es) h hstop (ends_pastTrivia rfl rfl rest)).optional

/-- The call that the parts of a call make. -/
def callOf (name : String) (args : Option (List Expr)) (line : Nat) : Source.Call Expr :=
  ⟨name, args.getD [], line⟩

/-- A call with the arguments that stand in the parentheses. -/
theorem reads_functionCall {P : List Expr → Prop} (hx : IsName x)
    (h : Reads (optional (separated expr (literal ","))) (pastTrivia cs) (fun t => P (t.getD []))
      (')' :: rest)) :
    Reads (functionCall expr) (x.toList ++ '(' :: cs)
      (fun c => ∃ trees line, P trees ∧ c = ⟨x, trees, line⟩) rest := by
  have hopen : Closed ('(' :: cs) := rfl
  have hhead : Reads (callOf <$> name <* literal "(") (x.toList ++ '(' :: cs) (· = callOf x) cs := by
    have hname : Reads (callOf <$> name) (x.toList ++ '(' :: cs) (· = callOf x) ('(' :: cs) :=
      Reads.map ((reads_name hx hopen).mono fun _ hname => congrArg callOf hname)
    exact hname.before_mark rfl (pastTrivia_of_isSolid rfl cs)
  have hargs := hhead.seq (Q := fun g => ∀ line, ∃ trees l, P trees ∧ g line = ⟨x, trees, l⟩)
    fun g hg => h.mono fun trees htrees line => hg ▸ ⟨trees.getD [], line, htrees, rfl⟩
  exact (hargs.before_mark rfl (pastTrivia_of_isSolid rfl rest)).located.rule _

theorem readsAtom_call (hx : IsName x) (hnone : ∀ rest, Refuses expr (')' :: rest))
    (h : ∀ e ∈ es, ReadsText expr e) (line : Nat) :
    ReadsAtom expr (Expression.call x es line).text.toList (Expression.call x es line).shown := by
  rw [Expression.shown_call]
  have htext (rest : List Char) : (Expression.call x es line).text.toList ++ rest =
      x.toList ++ '(' :: ((", ".intercalate (Expression.listTexts es)).toList ++ ')' :: rest) := by
    simp [Expression.text]
  have hopen (cs : List Char) : Closed ('(' :: cs) := rfl
  constructor
  · rw [← List.append_nil (Expression.text _).toList, htext]
    exact (hx.starts.of_imp fun _ => startsOperand_of_startsName).append _
  · intro rest _
    rw [htext]
    exact (startsPlain_of_isName hx (hopen _)).refuses_opUnary
  · intro rest _
    rw [htext]
    have hcall := reads_functionCall hx (reads_arguments (hnone rest) h)
    refine (startsPlain_of_isName hx (hopen _)).reads_atom (hcall.mono ?_).map.orElse
    rintro _ ⟨trees, line', htrees, rfl⟩
    exact .call htrees x line' line

end Calls

/-- A constructor that lacks one expression only, the last one, to make `e`. -/
def LacksLast (o e : Expression) (f : Expr → Nat → Expr) : Prop :=
  ∀ last : Expr, last.Means o.shown → ∀ line, (f last line).Means e

section Size

variable {depth : Nat}

variable {x : String}

/-- The array of a size query. -/
theorem reads_sizeOf (depth : Nat) (hx : IsReferenceName x) (accessLine line : Nat) (cs : List Char) :
    Reads (Expr.size <$> (kwSize *> literal "(" *> reference (nestedExpression (depth + 1))) <* literal ",")
      ("size".toList ++ '(' :: (x.toList ++ ',' :: cs))
      (LacksLast e (.call "size" [.reference ⟨x, false, accessLine, []⟩, e.shown] line)) cs := by
  have hcomma : Stops (',' :: cs) := stops_of_isSolid rfl rfl rfl cs
  have hend : Ends isIdentChar ('(' :: (x.toList ++ ',' :: cs)) := rfl
  have hopen : Reads (kwSize *> literal "(") ("size".toList ++ '(' :: (x.toList ++ ',' :: cs))
      (fun _ => True) (x.toList ++ ',' :: cs) := by
    refine (reads_reserved (by decide) hend).seqRight fun _ _ => ?_
    rw [pastTrivia_of_isSolid rfl]
    exact reads_literal "(" (x.toList ++ ',' :: cs)
  have hname := reads_referenceName depth hx hcomma.toFollows
  rw [← pastTrivia_of_starts hx.starts] at hname
  have harray : Reads (Expr.size <$> (kwSize *> literal "(" *> reference (nestedExpression (depth + 1))))
      ("size".toList ++ '(' :: (x.toList ++ ',' :: cs))
      (LacksLast e (.call "size" [.reference ⟨x, false, accessLine, []⟩, e.shown] line)) (',' :: cs) := by
    refine Reads.map ((hopen.seqRight fun _ _ => hname).mono ?_)
    rintro _ ⟨s, l, hs, rfl⟩ last hlast l'
    exact .size hs hlast l accessLine l' line
  exact harray.before_mark rfl (pastTrivia_of_isSolid rfl cs)

/-- The size of the dimension `e` of an array. -/
theorem reads_sizeQuery (hx : IsReferenceName x) (he : ReadsText (nestedExpression (depth + 1)) e)
    (accessLine line : Nat) (rest : List Char) :
    Reads (sizeQuery (nestedExpression (depth + 1)))
      ("size".toList ++ '(' :: (x.toList ++ ',' :: ' ' :: (e.text.toList ++ ')' :: rest)))
      (·.Means (.call "size" [.reference ⟨x, false, accessLine, []⟩, e.shown] line)) rest := by
  have hclose : Stops (')' :: rest) := stops_of_isSolid rfl rfl rfl rest
  have hsize := reads_sizeOf depth (e := e) hx accessLine line (' ' :: (e.text.toList ++ ')' :: rest))
  have hdimension := hsize.seq (Q := fun g : Nat → Expr => ∀ l, (g l).Means
    (.call "size" [.reference ⟨x, false, accessLine, []⟩, e.shown] line)) fun f hf => by
      rw [pastTrivia_space]
      exact (he.reads_pastTrivia hclose).mono hf
  exact (hdimension.before_mark rfl (pastTrivia_of_isSolid rfl rest)).located.rule _

theorem readsAtom_size {r : Reference} (hr : IsReferenceName r.name)
    (he : ReadsText (nestedExpression (depth + 1)) e) (line : Nat) :
    ReadsAtom (nestedExpression (depth + 1)) (Expression.call "size" [.reference r, e] line).text.toList
      (Expression.call "size" [.reference r, e] line).shown := by
  have htext (rest : List Char) : (Expression.call "size" [.reference r, e] line).text.toList ++ rest =
      "size".toList ++ '(' :: (r.name.toList ++ ',' :: ' ' :: (e.text.toList ++ ')' :: rest)) := by
    simp [Expression.text, Expression.listTexts]
  have hword (s : String) (hs : s ∈ keywords) (cs : List Char) :
      Scanner.word s ("size".toList ++ '(' :: cs) = if "size" = s then some "size".toList else none :=
    word_keyword_append hs (by decide) rfl
  constructor
  · rw [← List.append_nil (Expression.text _).toList, htext]
    rfl
  · intro rest _
    rw [htext]
    exact refuses_opUnary (hword "not" (by decide) _) rfl
  · intro rest _
    rw [htext, Expression.shown_call]
    generalize hbody : r.name.toList ++ ',' :: ' ' :: (e.text.toList ++ ')' :: rest) = body
    have hif : Refuses (ifExpression (nestedExpression (depth + 1))) ("size".toList ++ '(' :: body) :=
      refuses_ifExpression (hword "if" (by decide) body)
    have hparen : Refuses (parenthesized (nestedExpression (depth + 1))) ("size".toList ++ '(' :: body) :=
      refuses_parenthesized rfl
    have harray : Refuses (arrayConstructor (nestedExpression (depth + 1)))
        ("size".toList ++ '(' :: body) := refuses_arrayConstructor rfl
    have hsize := reads_sizeQuery hr he r.line line rest
    rw [hbody] at hsize
    exact hif.orElse_reads (hparen.orElse_reads (harray.orElse_reads hsize.orElse))

end Size

section Arrays

theorem readsAtom_array (hne : es ≠ []) (h : ∀ e ∈ es, ReadsText expr e) (line : Nat) :
    ReadsAtom expr (Expression.array es line).text.toList (Expression.array es line).shown := by
  have htext (rest : List Char) : (Expression.array es line).text.toList ++ rest =
      '\x7b' :: ((", ".intercalate (Expression.listTexts es)).toList ++ '\x7d' :: rest) := by
    simp [Expression.text]
  constructor
  · rw [← List.append_nil (Expression.text _).toList, htext]
    rfl
  · intro rest _
    rw [htext]
    exact refuses_opUnary (word_eq_none (p := Char.isAlpha) rfl rfl) rfl
  · intro rest _
    rw [htext, Expression.shown_array]
    generalize hbody : (", ".intercalate (Expression.listTexts es)).toList ++ '\x7d' :: rest = body
    have hif : Refuses (ifExpression expr) ('\x7b' :: body) :=
      refuses_ifExpression (word_eq_none (p := Char.isAlpha) rfl rfl)
    have hstop : Stops ('\x7d' :: rest) := stops_of_isSolid rfl rfl rfl rest
    have hopen : Reads (literal "\x7b" *> separated expr (literal ",")) ('\x7b' :: body)
        (List.Forall₂ (fun e (tree : Expr) => tree.Means e) (es.map Expression.shown)) ('\x7d' :: rest) := by
      refine Reads.behind_mark rfl ?_
      rw [← hbody]
      exact reads_texts hne h hstop (ends_pastTrivia rfl rfl rest)
    have hitems := hopen.before_mark (s := "\x7d") rfl (pastTrivia_of_isSolid rfl rest)
    have harray : Reads (arrayConstructor expr) ('\x7b' :: body)
        (·.Means (.array (es.map Expression.shown) line)) rest :=
      (Reads.map (hitems.mono fun trees htrees text line' =>
        Expr.Means.array htrees text line' line)).quoted.located.rule _
    have hparen : Refuses (parenthesized expr) ('\x7b' :: body) := refuses_parenthesized rfl
    exact hif.orElse_reads (hparen.orElse_reads harray.orElse)

end Arrays

section Choices

/-- A blank in front of a reserved word is all that is skipped there. -/
theorem pastTrivia_space_keyword {s : String} (hs : s ∈ keywords) (cs : List Char) :
    pastTrivia (' ' :: (s.toList ++ cs)) = s.toList ++ cs := by
  rw [pastTrivia_space, pastTrivia_of_starts (starts_of_isIdentifier (isIdentifier_of_mem_keywords s hs))]

theorem ends_space (cs : List Char) : Ends isIdentChar (' ' :: cs) := rfl

section Words

variable {α : Type} {r : Rule} {s : String}

/-- An expression behind a reserved word. -/
theorem reads_map_word_text {f : Expr → α} {F : α → Prop} (hs : s ∈ keywords) (he : ReadsText expr e)
    (hrest : Stops rest) (hf : ∀ tree : Expr, tree.Means e.shown → F (f tree)) :
    Reads (f <$> (reserved r s *> expr)) (s.toList ++ ' ' :: (e.text.toList ++ rest)) F rest := by
  refine Reads.map ((reads_reserved hs (ends_space _)).seqRight fun _ _ => ?_)
  rw [pastTrivia_space]
  exact (he.reads_pastTrivia hrest).mono hf

/-- A construct that an expression behind a reserved word follows. -/
theorem reads_seq_word_text {f : Parser (Expr → α)} {F : (Expr → α) → Prop} {Q : α → Prop}
    (hs : s ∈ keywords) (hf : Reads f cs F (' ' :: (s.toList ++ ' ' :: (e.text.toList ++ rest))))
    (he : ReadsText expr e) (hrest : Stops rest) (hq : ∀ g, F g → ∀ tree : Expr, tree.Means e.shown → Q (g tree)) :
    Reads (f <* reserved r s <*> expr) cs Q rest := by
  have hword : Reads (f <* reserved r s) cs F (' ' :: (e.text.toList ++ rest)) := by
    refine hf.seqLeft fun g hg => ?_
    rw [pastTrivia_space_keyword hs]
    exact (reads_reserved hs (ends_space _)).mono fun _ _ => hg
  refine hword.seq fun g hg => ?_
  rw [pastTrivia_space]
  exact (he.reads_pastTrivia hrest).mono (hq g hg)

end Words

/-- A further choice with its condition. -/
theorem reads_elseifExpression (hc : ReadsText expr c) (hv : ReadsText expr v) (hrest : Stops rest) :
    Reads (elseifExpression expr)
      ("elseif".toList ++ ' ' :: (c.text.toList ++ ' ' :: ("then".toList ++ ' ' ::
        (v.text.toList ++ rest))))
      (fun arm => arm.1.Means c.shown ∧ arm.2.Means v.shown) rest := by
  have hthen : Stops (' ' :: ("then".toList ++ ' ' :: (v.text.toList ++ rest))) := stops_space rfl rfl _
  have hcondition := reads_map_word_text (r := .kwElseif) (f := Prod.mk) (s := "elseif")
    (F := fun g => ∀ tv : Expr, tv.Means v.shown → (g tv).1.Means c.shown ∧ (g tv).2.Means v.shown)
    (by decide) hc hthen fun tc htc tv htv => ⟨htc, htv⟩
  exact (reads_seq_word_text (by decide) hcondition hv hrest fun g hg => hg).rule _

variable {arms : List (Expression × Expression)}

theorem toList_armText_cons (arm : Expression × Expression) :
    (Expression.armText (arm :: arms)).toList ++ cs =
      ' ' :: ("elseif".toList ++ ' ' :: (arm.1.text.toList ++ ' ' :: ("then".toList ++ ' ' ::
        (arm.2.text.toList ++ ((Expression.armText arms).toList ++ cs))))) := by
  simp [Expression.armText]

/-- An expression ends in front of the further choices. -/
theorem stops_arms (cs : List Char) :
    Stops ((Expression.armText arms).toList ++ ' ' :: ("else".toList ++ cs)) := by
  cases arms with
  | nil => exact stops_space rfl rfl _
  | cons arm arms =>
    rw [toList_armText_cons]
    exact stops_space rfl rfl _

theorem readsMany_arms (h : ∀ arm ∈ arms, ReadsText expr arm.1 ∧ ReadsText expr arm.2)
    (cs : List Char) :
    ReadsMany (elseifExpression expr)
      ((Expression.armText arms).toList ++ ' ' :: ("else".toList ++ ' ' :: cs))
      (List.Forall₂ (fun arm (tree : Expr × Expr) =>
        tree.1.Means arm.1.shown ∧ tree.2.Means arm.2.shown) arms)
      (' ' :: ("else".toList ++ ' ' :: cs)) := by
  induction arms with
  | nil =>
    have helse : Scanner.word "elseif" ("else".toList ++ ' ' :: cs) = none :=
      word_keyword_append (by decide) (by decide) (ends_space cs)
    refine .nil ?_ .nil
    change Refuses _ (pastTrivia (' ' :: ("else".toList ++ ' ' :: cs)))
    rw [pastTrivia_space_keyword (by decide)]
    exact (refuses_reserved helse).seqRight.map.seqLeft.seq.rule _
  | cons arm arms ih =>
    obtain ⟨⟨hc, hv⟩, harms⟩ := List.forall_mem_cons.1 h
    rw [toList_armText_cons]
    refine .cons (Q := fun tree => tree.1.Means arm.1.shown ∧ tree.2.Means arm.2.shown) ?_ ?_
      fun tree htree => (ih harms).mono fun trees htrees => .cons htree htrees
    · rw [pastTrivia_space_keyword (by decide)]
      exact reads_elseifExpression hc hv (stops_arms _)
    · rw [pastTrivia_space_keyword (by decide)]
      simp
      omega

/-- A constructor that lacks the further choices and the last one, to make `e`. -/
def LacksArms (arms : List (Expression × Expression)) (o e : Expression)
    (f : List (Expr × Expr) → Expr → Nat → Expr) : Prop :=
  ∀ trees, List.Forall₂ (fun arm (tree : Expr × Expr) =>
    tree.1.Means arm.1.shown ∧ tree.2.Means arm.2.shown) arms trees → LacksLast o e (f trees)

/-- A choice with its conditions and values. -/
theorem reads_ifExpression (hc : ReadsText expr c) (hv : ReadsText expr v)
    (harms : ∀ arm ∈ arms, ReadsText expr arm.1 ∧ ReadsText expr arm.2) (ho : ReadsText expr o)
    (hrest : Stops rest) (line : Nat) :
    Reads (ifExpression expr)
      ("if".toList ++ ' ' :: (c.text.toList ++ ' ' :: ("then".toList ++ ' ' :: (v.text.toList ++
        ((Expression.armText arms).toList ++ ' ' :: ("else".toList ++ ' ' :: (o.text.toList ++ rest)))))))
      (·.Means (Expression.conditional c v arms o line).shown) rest := by
  rw [Expression.shown_conditional]
  have hthen : Stops (' ' :: ("then".toList ++ ' ' :: (v.text.toList ++
      ((Expression.armText arms).toList ++ ' ' :: ("else".toList ++ ' ' :: (o.text.toList ++ rest)))))) :=
    stops_space rfl rfl _
  have hcondition := reads_map_word_text (r := .kwIf) (f := Expr.conditional) (s := "if")
    (F := fun f => ∀ value : Expr, value.Means v.shown → LacksArms arms o (.conditional c.shown v.shown
      (arms.map fun arm => (arm.1.shown, arm.2.shown)) o.shown line) (f value)) (by decide) hc hthen
    fun _ hcond _ hvalue _ htrees _ hlast l =>
      hcond.conditional hvalue (List.forall₂_map_left_iff.2 htrees) hlast l line
  have hvalue := reads_seq_word_text (r := .kwThen) (by decide) hcondition hv (stops_arms _) fun g hg => hg
  have harmed := hvalue.seq fun g hg => (readsMany_arms harms _).reads.mono (hg : LacksArms arms o _ g)
  refine (Reads.located ?_).rule _
  exact reads_seq_word_text (r := .kwElse) (by decide) harmed ho hrest fun g hg => hg

theorem readsAtom_conditional (hc : ReadsText expr c) (hv : ReadsText expr v)
    (harms : ∀ arm ∈ arms, ReadsText expr arm.1 ∧ ReadsText expr arm.2) (ho : ReadsText expr o)
    (line : Nat) :
    ReadsAtom (expressionOf expr) (Expression.conditional c v arms o line).text.toList
      (Expression.conditional c v arms o line).shown := by
  let body (cs : List Char) : List Char := "if".toList ++ ' ' :: (c.text.toList ++ ' ' ::
    ("then".toList ++ ' ' :: (v.text.toList ++ ((Expression.armText arms).toList ++ ' ' ::
      ("else".toList ++ ' ' :: (o.text.toList ++ cs))))))
  have htext : (Expression.conditional c v arms o line).text.toList =
      '(' :: ([] ++ (body [] ++ ([] ++ [')']))) := by
    simp [Expression.text, body]
  rw [htext]
  refine readsAtom_group (fun rest => ?_) fun rest => pastTrivia_of_isSolid rfl rest
  have hsplit : [] ++ (body [] ++ ([] ++ ')' :: rest)) = body (')' :: rest) := by simp [body]
  have hsolid : pastTrivia (body (')' :: rest)) = body (')' :: rest) := pastTrivia_of_isSolid rfl _
  have hstop : Stops (')' :: rest) := stops_of_isSolid rfl rfl rfl rest
  have hunary : Refuses opUnary (body (')' :: rest)) :=
    refuses_opUnary (word_keyword_append (by decide) (by decide) (ends_space _)) rfl
  rw [hsplit, hsolid]
  exact reads_expressionOf (reads_primary hunary (reads_ifExpression hc hv harms ho hstop line).orElse)
    hstop

end Choices

end GalecAudit.Grammar
