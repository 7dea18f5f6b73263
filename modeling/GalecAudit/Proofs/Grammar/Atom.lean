import GalecAudit.Proofs.Grammar.Levels

/-!
# Atoms

How names, literals and groups are read, with a prefix operator in front of them or without one. Each is
the first alternative of the grammar that fits its beginning.
-/
namespace GalecAudit.Grammar

open Source Grammar.Parser

variable {cs rest mid : List Char} {expr : Parser Expr} {P : Expr → Prop}

section Words

theorem text_eq_none {p : Char → Bool} {s : String} (hs : s.toList.head?.any p = true)
    (h : Ends p cs) : Scanner.text s cs = none := by
  rw [Scanner.text, if_neg]
  rw [List.isPrefixOf_iff_prefix]
  rintro ⟨w, rfl⟩
  cases hl : s.toList with
  | nil =>
    rw [hl] at hs
    cases hs
  | cons c l =>
    rw [hl] at hs h
    exact absurd hs (Bool.eq_false_iff.1 h)

theorem word_eq_none {p : Char → Bool} {s : String} (hs : s.toList.head?.any p = true)
    (h : Ends p cs) : Scanner.word s cs = none := by
  rw [Scanner.word, Scanner.notBefore, text_eq_none hs h]

/-- No reserved word stands at the start of a text. -/
def NoKeyword (cs : List Char) : Prop := ∀ s ∈ keywords, Scanner.word s cs = none

theorem noKeyword_of_ends (h : Ends Char.isAlpha cs) : NoKeyword cs := by
  have hletter : ∀ s ∈ keywords, s.toList.head?.any Char.isAlpha = true := by decide +kernel
  exact fun s hs => word_eq_none (hletter s hs) h

theorem isIdentChar_of_mem_keywords : ∀ s ∈ keywords, ∀ c ∈ s.toList, isIdentChar c = true :=
  areWords_keywords.chars

theorem noKeyword_of_isIdentifier {x : String} (hx : IsIdentifier x) (hk : x ∉ keywords)
    (hrest : Ends isIdentChar rest) : NoKeyword (x.toList ++ rest) := by
  intro s hs
  rw [Scanner.word_append (isIdentChar_of_mem_keywords s hs) hx.2 hrest, if_neg]
  intro h
  exact hk (String.toList_inj.1 h ▸ hs)

/-- A reserved word begins with no other reserved word. -/
theorem word_keyword_append {s t : String} (hs : s ∈ keywords) (ht : t ∈ keywords)
    (hrest : Ends isIdentChar rest) :
    Scanner.word s (t.toList ++ rest) = if t = s then some t.toList else none := by
  rw [Scanner.word_append (isIdentChar_of_mem_keywords s hs) (isIdentChar_of_mem_keywords t ht) hrest]
  simp only [String.toList_inj]

theorem wordOf_eq_none {spellings : List String} (h : ∀ s ∈ spellings, Scanner.word s cs = none) :
    Scanner.wordOf spellings cs = none := by
  rw [Scanner.wordOf, Scanner.notBefore, Scanner.firstOf_text]
  cases hf : spellings.find? fun s => s.toList.isPrefixOf cs with
  | none => rfl
  | some s =>
    have hs := h s (List.mem_of_find?_eq_some hf)
    have hp := List.find?_some hf
    rw [Scanner.word, Scanner.notBefore, Scanner.text, if_pos hp] at hs
    exact hs

end Words

section Reserved

theorem reads_reserved {rule : Rule} {s : String} (hs : s ∈ keywords) (hrest : Ends isIdentChar rest) :
    Reads (reserved rule s) (s.toList ++ rest) (fun _ => True) rest :=
  Reads.map ((reads_token (by rw [word_keyword_append hs hs hrest, if_pos rfl])).mono
    fun _ _ => trivial)

theorem refuses_reserved {rule : Rule} {s : String} (h : Scanner.word s cs = none) :
    Refuses (reserved rule s) cs := (refuses_token h).map

end Reserved

section Name

variable {x : String}

theorem reads_name (hx : IsName x) (hrest : Closed rest) :
    Reads name (x.toList ++ rest) (· = x) rest := by
  have hof : String.ofList x.toList = x := String.ofList_toList
  rcases hx with ⟨hx, hk⟩ | hx
  · refine (refuses_token (Lexeme.quotedName_eq_none (hx.ends_quote rest))).orElse_reads ?_
    exact (reads_token (Lexeme.ident_append hx hk hrest.isIdentChar)).mono fun _ h => h.trans hof
  · exact ((reads_token (Lexeme.quotedName_append hx rest)).mono fun _ h => h.trans hof).orElse

theorem noKeyword_of_isName (hx : IsName x) (hrest : Closed rest) : NoKeyword (x.toList ++ rest) := by
  rcases hx with ⟨hx, hk⟩ | hx
  · exact noKeyword_of_isIdentifier hx hk hrest.isIdentChar
  · refine noKeyword_of_ends ((Lexeme.starts_of_isQuoted hx).ends (fun c hc => ?_) rest)
    rw [beq_iff_eq.1 hc]
    rfl

theorem refuses_name (h : Ends startsName cs) : Refuses name cs := by
  have hquote : Ends (· == '\'') cs := h.of_imp fun c hc => by rw [startsName, hc, Bool.or_true]
  have hletter : Ends Char.isAlpha cs := h.of_imp fun c hc => by rw [startsName, hc, Bool.true_or]
  refine (refuses_token (Lexeme.quotedName_eq_none hquote)).orElse (refuses_token ?_)
  rw [Lexeme.ident, wordOf_eq_none (noKeyword_of_ends hletter)]
  exact Scanner.andThen_eq_none (Scanner.one_eq_none_of_ends hletter)

theorem refuses_name_of_keyword {s : String} (hs : s ∈ keywords) (hrest : Ends isIdentChar rest) :
    Refuses name (s.toList ++ rest) := by
  have hx := isIdentifier_of_mem_keywords s hs
  refine (refuses_token (Lexeme.quotedName_eq_none (hx.ends_quote rest))).orElse (refuses_token ?_)
  rw [Lexeme.ident, Scanner.wordOf_append areWords_keywords hx.2 hrest, String.ofList_toList,
    if_pos hs]

end Name

/-- Neither a prefix operator nor a choice, a group, an array or a size query begins here. -/
structure StartsPlain (cs : List Char) : Prop where
  word : ∀ s ∈ ["not", "if", "size"], Scanner.word s cs = none
  mark : Ends (fun c => ['-', '(', '\x7b'].contains c) cs

theorem refuses_literal_of_ends {s : String} {c : Char} (hs : s.toList = [c])
    (h : Ends (· == c) cs) : Refuses (literal s) cs :=
  refuses_literal (text_eq_none (by rw [hs]; simp) h)

theorem refuses_opUnary (hnot : Scanner.word "not" cs = none) (hminus : Ends (· == '-') cs) :
    Refuses opUnary cs := by
  refine refuses_symbol ?_
  have htext : Scanner.text "-" cs = none := text_eq_none rfl hminus
  simp only [firstSpelling, htext, hnot]

theorem refuses_ifExpression (h : Scanner.word "if" cs = none) : Refuses (ifExpression expr) cs :=
  (refuses_reserved h).seqRight.map.seqLeft.seq.seq.seqLeft.seq.located.rule _

theorem refuses_parenthesized (h : Ends (· == '(') cs) : Refuses (parenthesized expr) cs :=
  (refuses_literal_of_ends rfl h).seqRight.seqLeft.map.located.rule _

theorem refuses_arrayConstructor (h : Ends (· == '\x7b') cs) : Refuses (arrayConstructor expr) cs :=
  (refuses_literal_of_ends rfl h).seqRight.seqLeft.map.quoted.located.rule _

theorem refuses_sizeQuery (h : Scanner.word "size" cs = none) : Refuses (sizeQuery expr) cs :=
  (refuses_reserved h).seqRight.seqRight.map.seqLeft.seq.seqLeft.located.rule _

theorem StartsPlain.refuses_opUnary (h : StartsPlain cs) : Refuses opUnary cs :=
  Grammar.refuses_opUnary (h.word _ (by decide)) (h.mark.of_imp fun c hc => by simp_all)

/-- Where nothing else begins, the last three alternatives of an atom decide. -/
theorem StartsPlain.reads_atom (h : StartsPlain cs)
    (hr : Reads (Expr.call <$> functionCall expr <|> constant <|> Expr.access <$> reference expr)
      cs P rest) : Reads (atom expr) cs P rest := by
  have hif : Refuses (ifExpression expr) cs := refuses_ifExpression (h.word _ (by decide))
  have hparen : Refuses (parenthesized expr) cs :=
    refuses_parenthesized (h.mark.of_imp fun c hc => by simp_all)
  have harray : Refuses (arrayConstructor expr) cs :=
    refuses_arrayConstructor (h.mark.of_imp fun c hc => by simp_all)
  have hsize : Refuses (sizeQuery expr) cs := refuses_sizeQuery (h.word _ (by decide))
  exact hif.orElse_reads (hparen.orElse_reads (harray.orElse_reads (hsize.orElse_reads hr)))

/-- A text is read as an atom with the meaning `e`. -/
structure ReadsAtom (expr : Parser Expr) (text : List Char) (e : Expression) : Prop where
  starts : Starts startsOperand text
  unsigned : ∀ rest, Follows rest → Refuses opUnary (text ++ rest)
  reads : ∀ rest, Follows rest → Reads (atom expr) (text ++ rest) (·.Means e) rest

/-- Where no prefix operator stands, an operand is an atom. -/
theorem reads_primary (hunary : Refuses opUnary cs) (h : Reads (atom expr) cs P rest) :
    Reads (primary expr) cs P rest := (hunary.map.seq.located.rule _).orElse_reads h

/-- An atom is an operand. -/
theorem ReadsAtom.operand {text : List Char} {e : Expression} (h : ReadsAtom expr text e) :
    ReadsOperand expr text e where
  starts := h.starts
  reads rest hrest := reads_primary (h.unsigned rest hrest) (h.reads rest hrest)

/-- An atom behind a prefix operator, with a gap between the two or without one. -/
theorem reads_unary {text gap : List Char} (op : UnaryOperator)
    (hgap : ∀ cs, pastTrivia (gap ++ cs) = pastTrivia cs)
    (hsep : op = .not → ∀ cs, Ends isIdentChar (gap ++ cs)) (hstarts : Starts startsOperand text)
    (h : Reads (atom expr) (text ++ rest) P rest) :
    Reads (primary expr) (op.symbol.toList ++ (gap ++ (text ++ rest)))
      (fun t => ∃ operand line, P operand ∧ t = .unary op operand line) rest := by
  have hop (cs : List Char) : Reads opUnary (op.symbol.toList ++ (gap ++ cs)) (· = op) (gap ++ cs) := by
    refine reads_symbol ?_
    cases op with
    | negate => rfl
    | not =>
      have hnot := word_keyword_append (s := "not") (t := "not") (by decide) (by decide) (hsep rfl cs)
      have hminus : Scanner.text "-" ("not".toList ++ (gap ++ cs)) = none :=
        text_eq_none (p := (· == '-')) rfl rfl
      rw [UnaryOperator.symbol, firstSpelling, hminus, firstSpelling, hnot, if_pos rfl]
  refine ((Reads.located ((hop _).map_seq fun _ hop => ?_)).rule _).orElse
  rw [hgap, pastTrivia_of_starts hstarts]
  exact h.mono fun operand hoperand line => ⟨operand, line, hoperand, hop ▸ rfl⟩

theorem ReadsAtom.unary {text gap : List Char} {e : Expression} (h : ReadsAtom expr text e)
    (op : UnaryOperator) (line : Nat) (hgap : ∀ cs, pastTrivia (gap ++ cs) = pastTrivia cs)
    (hsep : op = .not → ∀ cs, Ends isIdentChar (gap ++ cs)) :
    ReadsOperand expr (op.symbol.toList ++ (gap ++ text)) (.unary op e line) where
  starts := by cases op <;> rfl
  reads rest hrest := by
    rw [List.append_assoc, List.append_assoc]
    refine (reads_unary op hgap hsep h.starts (h.reads rest hrest)).mono ?_
    rintro _ ⟨operand, line', hoperand, rfl⟩
    exact hoperand.unary op line' line

section Names

variable {x : String}

theorem startsPlain_of_isName (hx : IsName x) (hrest : Closed rest) : StartsPlain (x.toList ++ rest) where
  word s hs := by
    refine noKeyword_of_isName hx hrest s ?_
    revert s
    decide
  mark := hx.starts.ends (fun _ => not_mem_of_startsName _ (by decide)) rest

theorem startsOperand_of_startsName {c : Char} (h : startsName c = true) : startsOperand c = true := by
  rw [startsOperand, h, Bool.true_or, Bool.true_or]

theorem starts_of_isIdentifier (hx : IsIdentifier x) : Starts startsOperand x.toList :=
  hx.starts.of_imp fun c hc => startsOperand_of_startsName (by rw [startsName, hc, Bool.true_or])

theorem refuses_constant_of_wordOf (hboolean : Scanner.wordOf ["true", "false"] cs = none)
    (hd : Ends Char.isDigit cs) : Refuses constant cs :=
  Refuses.located (((refuses_token hboolean).map.orElse
    ((refuses_token (Lexeme.real_eq_none hd)).map.orElse
      (refuses_token (Lexeme.digits_eq_none hd)).map)))

theorem refuses_constant (hk : NoKeyword cs) (hd : Ends Char.isDigit cs) : Refuses constant cs :=
  refuses_constant_of_wordOf (wordOf_eq_none fun s hs => hk s (by revert s; decide)) hd

theorem refuses_functionCall_of_name (h : Refuses name cs) : Refuses (functionCall expr) cs :=
  h.map.seqLeft.seq.seqLeft.located.rule _

/-- A name that no arguments follow is no call. -/
theorem refuses_functionCall (hx : IsName x) (hrest : Closed rest)
    (hnext : Ends (· == '(') (pastTrivia rest)) : Refuses (functionCall expr) (x.toList ++ rest) := by
  have hname := (reads_name hx hrest).mono fun _ _ => trivial
  exact (Refuses.seqLeft_snd (P := fun _ => True) hname.map
    (refuses_literal_of_ends rfl hnext)).seq.seqLeft.located.rule _

/-- A segment without `self` in front of it is a whole reference. -/
theorem reads_reference {P : Segment Expr → Prop} (hself : Scanner.word "self" cs = none)
    (h : Reads (referenceSegment expr) cs P rest) :
    Reads (reference expr) cs (fun a => ∃ s line, P s ∧ a = ⟨false, [s], line⟩) rest := by
  have hstate : Refuses (stateReference expr) cs :=
    (refuses_reserved hself).seqRight.seqRight.map.rule _
  have hlocal := Reads.map (f := fun (s : Segment Expr) line => (⟨false, [s], line⟩ : Access Expr))
    (Q := fun g => ∀ line, ∃ s l, P s ∧ g line = ⟨false, [s], l⟩)
    (h.mono fun s hs line => ⟨s, line, hs, rfl⟩)
  exact ((hstate.orElse_reads (hlocal.rule _)).located).rule _

/-- A segment is read as an access. -/
theorem reads_access {P : Segment Expr → Prop} (hx : IsName x) (hcs : Closed cs)
    (hnext : Ends (· == '(') (pastTrivia cs))
    (h : Reads (referenceSegment expr) (x.toList ++ cs) P rest) :
    Reads (atom expr) (x.toList ++ cs) (fun t => ∃ s line, P s ∧ t = .access ⟨false, [s], line⟩)
      rest := by
  have hk := noKeyword_of_isName hx hcs
  have hdigit : Ends Char.isDigit (x.toList ++ cs) := hx.starts.ends (fun c => isDigit_of_startsName) cs
  have hreference := Reads.map (f := Expr.access)
    (Q := fun t => ∃ s line, P s ∧ t = .access ⟨false, [s], line⟩)
    ((reads_reference (hk "self" (by decide)) h).mono fun a ⟨s, line, hs, ha⟩ => ⟨s, line, hs, ha ▸ rfl⟩)
  exact (startsPlain_of_isName hx hcs).reads_atom
    ((refuses_functionCall hx hcs hnext).map.orElse_reads
      ((refuses_constant hk hdigit).orElse_reads hreference))

theorem reads_referenceSegment (hx : IsName x) (hrest : Follows rest) :
    Reads (referenceSegment expr) (x.toList ++ rest) (· = ⟨x, []⟩) rest := by
  have hbracket : Refuses (subscripts expr) (pastTrivia rest) :=
    (refuses_literal_of_ends (c := '[') rfl
      (hrest.next.of_imp fun c hc => by rw [hc, Bool.or_true])).seqRight.seqLeft.rule _
  refine (Reads.rule ((reads_name hx hrest.closed).map_seq fun _ hname => ?_) _)
  exact (hbracket.optional (hname ▸ rfl)).of_pastTrivia

theorem readsAtom_name (hx : IsName x) (line : Nat) :
    ReadsAtom expr x.toList (.reference ⟨x, false, line, []⟩) where
  starts := hx.starts.of_imp fun _ => startsOperand_of_startsName
  unsigned rest hrest := (startsPlain_of_isName hx hrest.closed).refuses_opUnary
  reads rest hrest := by
    have hnext : Ends (· == '(') (pastTrivia rest) :=
      hrest.next.of_imp fun c hc => by rw [hc, Bool.true_or]
    refine (reads_access hx hrest.closed hnext (reads_referenceSegment hx hrest)).mono ?_
    rintro _ ⟨_, line', rfl, rfl⟩
    exact .access rfl line' line

end Names

section Literals

variable {type : PrimitiveType} {text : String}

theorem startsPlain_of_isLiteral (h : IsLiteral type text) (hrest : Closed rest) :
    StartsPlain (text.toList ++ rest) := by
  rcases h.word_or_digit with hword | hdigit
  · have hkeyword : text ∈ keywords := by rcases hword with rfl | rfl <;> decide
    have hmark := (isIdentifier_of_mem_keywords text hkeyword).starts.ends
      (fun c hc => not_mem_of_startsName ['-', '(', '\x7b'] (by decide)
        (by rw [startsName, hc, Bool.true_or])) rest
    refine ⟨fun s hs => ?_, hmark⟩
    have hne : text ≠ s ∧ s ∈ keywords := by rcases hword with rfl | rfl <;> revert s <;> decide
    rw [word_keyword_append hne.2 hkeyword hrest.isIdentChar, if_neg hne.1]
  · have hletter := hdigit.ends (fun c => isAlpha_eq_false_of_isDigit) rest
    refine ⟨fun s hs => noKeyword_of_ends hletter s (by revert s; decide), ?_⟩
    refine hdigit.ends (fun c hc => Bool.eq_false_iff.2 fun hm => ?_) rest
    simp at hm
    rcases hm with rfl | rfl | rfl <;> cases hc

theorem starts_of_isLiteral (h : IsLiteral type text) : Starts startsOperand text.toList := by
  rcases h.word_or_digit with (rfl | rfl) | hdigit
  · rfl
  · rfl
  · exact hdigit.of_imp fun c hc => by rw [startsOperand, hc, Bool.or_true, Bool.true_or]

theorem refuses_name_of_isLiteral (h : IsLiteral type text) (hrest : Closed rest) :
    Refuses name (text.toList ++ rest) := by
  rcases h.word_or_digit with hword | hdigit
  · refine refuses_name_of_keyword ?_ hrest.isIdentChar
    rcases hword with rfl | rfl <;> decide
  · refine refuses_name (hdigit.ends (fun c hc => Bool.eq_false_iff.2 fun hs => ?_) rest)
    rw [isDigit_of_startsName hs] at hc
    cases hc

theorem reads_constant (h : IsLiteral type text) (hrest : Closed rest) :
    Reads constant (text.toList ++ rest) (fun t => ∃ line, t = .literal type text line) rest := by
  have hof : String.ofList text.toList = text := String.ofList_toList
  have hwords : Scanner.AreWords ["true", "false"] :=
    ⟨fun s hs => isIdentChar_of_mem_keywords s (by revert s; decide), by decide +kernel⟩
  have hboolean (hd : Starts Char.isDigit text.toList) :
      Scanner.wordOf ["true", "false"] (text.toList ++ rest) = none := by
    have hletter := hd.ends (fun c => isAlpha_eq_false_of_isDigit) rest
    exact wordOf_eq_none fun s hs => noKeyword_of_ends hletter s (by revert s; decide)
  have htoken {scan : Scanner} {rule : Rule} (type : PrimitiveType)
      (hs : scan (text.toList ++ rest) = some text.toList) :
      Reads (Expr.literal type <$> token rule scan) (text.toList ++ rest)
        (fun g => ∀ line, ∃ l, g line = .literal type text l) rest :=
    Reads.map ((reads_token hs).mono fun s hs line => ⟨line, by rw [hs, hof]⟩)
  cases h with
  | boolean hw =>
    have hchars := isIdentChar_of_mem_keywords text (by rcases hw with rfl | rfl <;> decide)
    have hs : Scanner.wordOf ["true", "false"] (text.toList ++ rest) = some text.toList := by
      rw [Scanner.wordOf_append hwords hchars hrest.isIdentChar, hof, if_pos (by simpa using hw)]
    exact ((htoken .boolean hs).orElse.located).rule _
  | real hw =>
    have hs := Lexeme.real_append hw hrest
    exact (((refuses_token (hboolean hw.starts)).map.orElse_reads (htoken .real hs).orElse).located).rule _
  | integer hw =>
    have hs := Lexeme.digits_append hw hrest.isDigit
    have hreal := Lexeme.real_append_eq_none hw hrest
    exact (((refuses_token (hboolean hw.starts)).map.orElse_reads
      ((refuses_token hreal).map.orElse_reads (htoken .integer hs))).located).rule _

theorem reads_literal_atom (h : IsLiteral type text) (hrest : Closed rest) :
    Reads (atom expr) (text.toList ++ rest) (fun t => ∃ line, t = .literal type text line) rest :=
  (startsPlain_of_isLiteral h hrest).reads_atom
    ((refuses_functionCall_of_name (refuses_name_of_isLiteral h hrest)).map.orElse_reads
      (reads_constant h hrest).orElse)

theorem readsAtom_literal (h : IsLiteral type text)
    (hrange : type = .integer → word? (decimal text) ≠ none) (line : Nat) :
    ReadsAtom expr text.toList (.constant type text line) where
  starts := starts_of_isLiteral h
  unsigned _ hrest := (startsPlain_of_isLiteral h hrest.closed).refuses_opUnary
  reads _ hrest := (reads_literal_atom h hrest.closed).mono fun _ ⟨line', ht⟩ =>
    ht ▸ .literal hrange line' line

end Literals

section Refusals

/-- Where no name begins, an atom is none of a call and a reference without `self`. -/
theorem refuses_atom_of_name (hname : Refuses name cs) (hif : Refuses (ifExpression expr) cs)
    (hmark : Ends (fun c => ['(', '\x7b'].contains c) cs) (hsize : Refuses (sizeQuery expr) cs)
    (hconstant : Refuses constant cs) (hself : Refuses (stateReference expr) cs) :
    Refuses (atom expr) cs := by
  have hparen : Refuses (parenthesized expr) cs :=
    refuses_parenthesized (hmark.of_imp fun c hc => by simp_all)
  have harray : Refuses (arrayConstructor expr) cs :=
    refuses_arrayConstructor (hmark.of_imp fun c hc => by simp_all)
  have hlocal : Refuses (localReference expr) cs := (hname.map.seq.rule _).map.rule _
  have hreference : Refuses (reference expr) cs := (hself.orElse hlocal).located.rule _
  exact hif.orElse <| hparen.orElse <| harray.orElse <| hsize.orElse <|
    (refuses_functionCall_of_name hname).map.orElse <| hconstant.orElse hreference.map

/-- Where nothing begins that an operand begins with, there is no atom. -/
theorem refuses_atom (h : Ends startsOperand cs) : Refuses (atom expr) cs := by
  have hname : Ends startsName cs := h.of_imp fun _ => startsOperand_of_startsName
  have hdigit : Ends Char.isDigit cs := h.of_imp fun c hc => by
    rw [startsOperand, hc, Bool.or_true, Bool.true_or]
  have hletter : Ends Char.isAlpha cs := hname.of_imp fun c hc => by
    rw [startsName, hc, Bool.true_or]
  have hk := noKeyword_of_ends hletter
  have hmark : Ends (fun c => ['(', '\x7b'].contains c) cs := h.of_imp fun c hc => by
    rw [startsOperand]
    simp_all
  have hself : Refuses (stateReference expr) cs :=
    (refuses_reserved (hk "self" (by decide))).seqRight.seqRight.map.rule _
  exact refuses_atom_of_name (refuses_name hname) (refuses_ifExpression (hk _ (by decide))) hmark
    (refuses_sizeQuery (hk _ (by decide))) (refuses_constant hk hdigit) hself

end Refusals

section Groups

/-- An expression in parentheses. -/
theorem reads_group (h : Reads expr (pastTrivia cs) P mid) (hmid : pastTrivia mid = ')' :: rest) :
    Reads (atom expr) ('(' :: cs) (fun t => ∃ inner line, P inner ∧ t = .paren inner line) rest := by
  have hif : Refuses (ifExpression expr) ('(' :: cs) :=
    refuses_ifExpression (word_eq_none (p := Char.isAlpha) rfl rfl)
  have hinner : Reads (literal "(" *> expr <* literal ")") ('(' :: cs) P rest :=
    (h.behind_mark rfl).before_mark rfl hmid
  have hgroup : Reads (parenthesized expr) ('(' :: cs) (fun t => ∃ inner line, P inner ∧ t = .paren inner line)
      rest := (hinner.mono fun inner hi line => ⟨inner, line, hi, rfl⟩).map.located.rule _
  exact hif.orElse_reads hgroup.orElse

theorem readsAtom_group {text lead trail : List Char} {e : Expression}
    (hread : ∀ rest, Reads expr (pastTrivia (lead ++ (text ++ (trail ++ ')' :: rest)))) (·.Means e)
      (trail ++ ')' :: rest))
    (htrail : ∀ rest, pastTrivia (trail ++ ')' :: rest) = ')' :: rest) :
    ReadsAtom expr ('(' :: (lead ++ (text ++ (trail ++ [')'])))) e where
  starts := rfl
  unsigned _ _ := refuses_opUnary (word_eq_none (p := Char.isAlpha) rfl rfl) rfl
  reads rest _ := by
    have hsplit : '(' :: (lead ++ (text ++ (trail ++ [')']))) ++ rest =
        '(' :: (lead ++ (text ++ (trail ++ ')' :: rest))) := by simp
    rw [hsplit]
    refine (reads_group (hread rest) (htrail rest)).mono ?_
    rintro _ ⟨inner, line, hinner, rfl⟩
    exact hinner.paren line

end Groups

end GalecAudit.Grammar
