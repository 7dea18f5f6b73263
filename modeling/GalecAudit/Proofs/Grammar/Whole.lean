import GalecAudit.Proofs.Grammar.Levels
import GalecAudit.Source.Read

/-!
# Whole texts

A text is read as an expression if the parser for a nesting as deep as the text is long reads all of it.
-/
namespace GalecAudit.Grammar

open Source Grammar.Parser

variable {cs rest : List Char} {P : Expr → Prop}

/-- The parser of expressions that are nested at most so deep. -/
abbrev nestedExpression (depth : Nat) : Parser Expr := nested expressionOf depth

theorem nested_succ {α : Type} (f : Parser α → Parser α) (depth : Nat) :
    nested f (depth + 1) = f (nested f depth) := rfl

theorem nestedExpression_succ (depth : Nat) :
    nestedExpression (depth + 1) = expressionOf (nestedExpression depth) :=
  nested_succ expressionOf depth

theorem reads_expression (h : Reads (nestedExpression (cs.length + 1)) cs P rest) :
    Reads expression cs P rest := by
  intro c hc
  subst hc
  exact h c rfl

theorem reads_standaloneExpression (hcs : pastTrivia cs = cs)
    (h : Reads (nestedExpression (cs.length + 1)) cs P []) :
    Reads standaloneExpression cs P [] := by
  have hnothing : Reads nothing cs (fun _ => True) cs := fun c hc => ⟨(), c, rfl, .inl hc, trivial⟩
  have hend : Reads endOfInput (pastTrivia []) (fun _ => True) [] := by
    intro c hc
    rw [pastTrivia_nil] at hc
    refine ⟨(), c, ?_, .inl hc, trivial⟩
    simp only [endOfInput, leaf, hc]
    rfl
  refine (Reads.seqLeft (hnothing.seqRight fun _ _ => ?_) fun tree htree =>
    hend.mono fun _ _ => htree).rule _
  rw [hcs]
  exact reads_expression h

/-- A text that begins with anything but a byte order mark is read from its first character on. -/
theorem rest_start {p : Char → Bool} (hp : p '\ufeff' = false) {source : String}
    (h : Starts p source.toList) : (Cursor.start source).rest = source.toList := by
  rw [Cursor.start]
  split
  · next heq =>
    rw [heq] at h
    exact absurd h (Bool.eq_false_iff.1 hp)
  · rfl

theorem run_eq_ok {α : Type} {p : Parser α} {a : α} {source : String} {d : Cursor}
    (h : p.parse (Cursor.start source) = some (a, d)) : p.run source = .ok a := by
  rw [Parser.run, h]

theorem run_standaloneExpression {source : String} (hstarts : Starts startsOperand source.toList)
    (h : Reads (nestedExpression (source.toList.length + 1)) source.toList P []) :
    ∃ tree, standaloneExpression.run source = .ok tree ∧ P tree := by
  have hsolid := pastTrivia_of_starts hstarts []
  rw [List.append_nil] at hsolid
  obtain ⟨tree, d, hd, -, htree⟩ :=
    reads_standaloneExpression hsolid h (Cursor.start source) (rest_start rfl hstarts)
  exact ⟨tree, run_eq_ok hd, htree⟩

theorem readExpression_of_run {source : String} {tree : Expr} {e : Expression}
    (hrun : standaloneExpression.run source = .ok tree) (hresolve : tree.resolve [] = .ok e) :
    readExpression source = .ok e := by
  unfold readExpression
  simp only [hrun, hresolve]

/-- A text that is read to its end stands for the expression that its tree means. -/
theorem readExpression_eq_ok {source : String} {e : Expression}
    (hstarts : Starts startsOperand source.toList)
    (h : Reads (nestedExpression (source.toList.length + 1)) source.toList (·.Means e) []) :
    ∃ e', readExpression source = .ok e' ∧ e'.unlined = e.unlined := by
  obtain ⟨tree, hrun, hmeans⟩ := run_standaloneExpression hstarts h
  obtain ⟨e', hresolve, he⟩ := hmeans
  exact ⟨e', readExpression_of_run hrun hresolve, he⟩

end GalecAudit.Grammar
