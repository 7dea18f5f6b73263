import GalecAudit.Proofs.Grammar.Printed
import GalecAudit.Proofs.Grammar.Spacing

/-!
# Words as texts

What a text stands for that is a single word: a reserved word is no name, whichever of the rules that
begin with a reserved word are tried on it, and any other word is one, whatever it begins with.
-/
namespace GalecAudit

namespace Grammar

open Source Grammar.Parser

variable {expr : Parser Expr} {w : String}

section Identifiers

/-- A text that is read as an atom is read as an expression. -/
theorem run_of_reads_atom {P : Expr → Prop} (hstarts : Starts startsOperand w.toList)
    (hunary : Refuses opUnary (w.toList ++ []))
    (h : ∀ expr, Reads (atom expr) (w.toList ++ []) P []) :
    ∃ tree, standaloneExpression.run w = .ok tree ∧ P tree := by
  refine run_standaloneExpression hstarts ?_
  rw [nestedExpression_succ, ← List.append_nil w.toList]
  exact reads_expressionOf (reads_primary hunary (h _)) stops_nil

theorem closed_nil : Closed [] := rfl

theorem readExpression_of_not_mem_keywords (hw : IsIdentifier w) (hk : w ∉ keywords) :
    ∃ line, readExpression w = .ok (.reference ⟨w, false, line, []⟩) := by
  have hname : IsName w := .inl ⟨hw, hk⟩
  have hunary := (startsPlain_of_isName hname closed_nil).refuses_opUnary
  have hcall : Ends (· == '(') (pastTrivia []) := by
    rw [pastTrivia_nil]
    rfl
  obtain ⟨tree, hrun, _, line, rfl, rfl⟩ := run_of_reads_atom (starts_of_isIdentifier hw) hunary
    fun _ => reads_access hname closed_nil hcall (reads_referenceSegment hname stops_nil.toFollows)
  refine ⟨line, readExpression_of_run hrun ?_⟩
  have hjoined : ".".intercalate [w] = w := String.intercalate_singleton
  exact congrArg (fun x => Except.ok (Expression.reference ⟨x, false, line, []⟩)) hjoined

theorem readExpression_boolean (hw : w = "true" ∨ w = "false") :
    ∃ line, readExpression w = .ok (.constant .boolean w line) := by
  have hliteral : IsLiteral .boolean w := .boolean hw
  have hunary := (startsPlain_of_isLiteral hliteral closed_nil).refuses_opUnary
  obtain ⟨tree, hrun, line, rfl⟩ := run_of_reads_atom (starts_of_isLiteral hliteral) hunary
    fun _ => reads_literal_atom hliteral closed_nil
  exact ⟨line, readExpression_of_run hrun rfl⟩

end Identifiers

section Keywords

theorem ends_nil (p : Char → Bool) : Ends p [] := rfl

theorem word_keyword {s : String} (hs : s ∈ keywords) (hw : w ∈ keywords) :
    Scanner.word s w.toList = if w = s then some w.toList else none := by
  have h := word_keyword_append hs hw (ends_nil isIdentChar)
  rwa [List.append_nil] at h

theorem ends_keyword {p : Char → Bool} (hw : w ∈ keywords)
    (hp : ∀ c, startsName c = true → p c = false) : Ends p w.toList := by
  rw [← List.append_nil w.toList]
  refine (isIdentifier_of_mem_keywords w hw).starts.ends (fun c hc => hp c ?_) []
  rw [startsName, hc, Bool.true_or]

/-- Behind a reserved word that is the whole text nothing can be read. -/
theorem refuses_behind_keyword {α : Type} {p : Parser α} {rule : Rule} {s : String}
    (hs : s ∈ keywords) (hw : w ∈ keywords) (hp : Refuses p []) :
    Refuses (reserved rule s *> p) w.toList := by
  by_cases h : w = s
  · subst h
    rw [← List.append_nil w.toList]
    exact Refuses.seqRight_snd (reads_reserved hw (ends_nil isIdentChar)) (by rwa [pastTrivia_nil])
  · exact (refuses_reserved (by rw [word_keyword hs hw, if_neg h])).seqRight

theorem refuses_unary_keyword (hw : w ∈ keywords) : Refuses (unaryExpression expr) w.toList := by
  refine Refuses.rule (Refuses.located ?_) _
  by_cases h : w = "not"
  · subst h
    have hread : Reads opUnary ("not".toList ++ []) (fun _ => True) [] :=
      (reads_symbol (a := .not) rfl).mono fun _ _ => trivial
    exact Refuses.seq_snd (F := fun _ => True) hread.map (refuses_atom (by rw [pastTrivia_nil]; rfl))
  · refine (refuses_opUnary ?_ ?_).map.seq
    · rw [word_keyword (by decide) hw, if_neg h]
    · refine ends_keyword hw fun c hc => beq_eq_false_iff_ne.2 ?_
      rintro rfl
      cases hc

/-- No reserved word is an expression, apart from `true` and `false`. -/
theorem refuses_keyword (hw : w ∈ keywords) (htrue : w ≠ "true") (hfalse : w ≠ "false")
    (hexpr : Refuses expr []) : Refuses (expressionOf expr) w.toList := by
  have hname : Refuses name w.toList := by
    rw [← List.append_nil w.toList]
    exact refuses_name_of_keyword hw (ends_nil isIdentChar)
  have hif : Refuses (ifExpression expr) w.toList :=
    (refuses_behind_keyword (by decide) hw hexpr).map.seqLeft.seq.seq.seqLeft.seq.located.rule _
  have hopen : Refuses (literal "(") [] := refuses_literal_of_ends (c := '(') rfl rfl
  have hpoint : Refuses (literal ".") [] := refuses_literal_of_ends (c := '.') rfl rfl
  have hsize : Refuses (sizeQuery expr) w.toList :=
    (refuses_behind_keyword (by decide) hw hopen).seqRight.map.seqLeft.seq.seqLeft.located.rule _
  have hself : Refuses (stateReference expr) w.toList :=
    (refuses_behind_keyword (by decide) hw hpoint).seqRight.map.rule _
  have hboolean : ∀ s ∈ ["true", "false"], Scanner.word s w.toList = none := by
    have hword : ∀ s ∈ ["true", "false"], s ∈ keywords := by decide
    have hne : ∀ s ∈ ["true", "false"], w ≠ s := by simpa using ⟨htrue, hfalse⟩
    exact fun s hs => by rw [word_keyword (hword s hs) hw, if_neg (hne s hs)]
  have hconstant : Refuses constant w.toList :=
    refuses_constant_of_wordOf (wordOf_eq_none hboolean)
      (ends_keyword hw fun _ => isDigit_of_startsName)
  have hmark : Ends (fun c => ['(', '\x7b'].contains c) w.toList :=
    ends_keyword hw fun c hc => not_mem_of_startsName _ (by decide) hc
  have hatom : Refuses (atom expr) w.toList :=
    refuses_atom_of_name hname hif hmark hsize hconstant hself
  exact refuses_expressionOf_of_primary ((refuses_unary_keyword hw).orElse hatom)

theorem refuses_nestedExpression_nil (depth : Nat) : Refuses (nestedExpression depth) [] := by
  cases depth with
  | zero => exact fun _ _ => rfl
  | succ depth => exact refuses_expressionOf rfl

theorem readExpression_keyword (hw : w ∈ keywords) (htrue : w ≠ "true") (hfalse : w ≠ "false") :
    ∃ e, readExpression w = .error (.refused e) := by
  have hstarts := starts_of_isIdentifier (isIdentifier_of_mem_keywords w hw)
  have hexpression : Refuses expression w.toList := by
    intro c hc
    exact refuses_keyword hw htrue hfalse (refuses_nestedExpression_nil c.rest.length) c hc
  have hnothing : Reads nothing w.toList (fun _ => True) w.toList :=
    fun c hc => ⟨(), c, rfl, .inl hc, trivial⟩
  have hsolid := pastTrivia_of_starts hstarts []
  rw [List.append_nil] at hsolid
  have hrefuses : Refuses standaloneExpression w.toList :=
    (Refuses.seqRight_snd hnothing (hsolid.symm ▸ hexpression)).seqLeft.rule _
  exact readExpression_of_parse_eq_none (hrefuses _ (rest_start rfl hstarts))

end Keywords

end Grammar

open Grammar

/-- A word is a reference by its name exactly if it is not reserved. Of the reserved words two are Boolean
constants and the others are no expressions. -/
theorem readExpression_word {w : String} (hw : IsIdentifier w) :
    ((∃ r, readExpression w = .ok (.reference r) ∧ r.name = w) ↔ w ∉ keywords) ∧
    (w = "true" ∨ w = "false" → ∃ line, readExpression w = .ok (.constant .boolean w line)) ∧
    (w ∈ keywords → w ≠ "true" → w ≠ "false" → ∃ e, readExpression w = .error (.refused e)) := by
  refine ⟨⟨?_, fun hk => ?_⟩, readExpression_boolean, readExpression_keyword⟩
  · rintro ⟨r, hread, -⟩ hk
    by_cases hboolean : w = "true" ∨ w = "false"
    · obtain ⟨line, hconstant⟩ := readExpression_boolean hboolean
      rw [hconstant] at hread
      cases hread
    · obtain ⟨htrue, hfalse⟩ := not_or.1 hboolean
      obtain ⟨e, hrefused⟩ := readExpression_keyword hk htrue hfalse
      rw [hrefused] at hread
      cases hread
  · obtain ⟨line, hread⟩ := readExpression_of_not_mem_keywords hw hk
    exact ⟨_, hread, rfl⟩

/-- Beginning with the reserved words `in` and `input` does not make a word reserved. -/
theorem readExpression_word_inputs :
    IsIdentifier "inputs" ∧ ∃ r, readExpression "inputs" = .ok (.reference r) ∧ r.name = "inputs" := by
  have hw : IsIdentifier "inputs" := by decide
  exact ⟨hw, (readExpression_word hw).1.2 (by decide)⟩

end GalecAudit
