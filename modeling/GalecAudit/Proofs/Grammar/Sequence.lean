import GalecAudit.Proofs.Grammar.Atom
import GalecAudit.Proofs.Grammar.Whole

/-!
# Flat sequences

Operands with binary operators between them, written with single blanks. Whatever the operators are and
however many there are, the text is read as the expression that precedence climbing makes of it.
-/
namespace GalecAudit

/-- An identifier that is no reserved word. -/
structure Identifier where
  name : String
  isIdentifier : Grammar.IsIdentifier name
  notReserved : name ∉ Grammar.keywords

/-- A literal. An integer is a 64-bit integer. -/
structure Literal where
  type : PrimitiveType
  text : String
  spelling : Grammar.IsLiteral type text
  inRange : type = .integer → Source.decimal text ≤ 9223372036854775807

/-- An operand: a name, a literal or a sequence in parentheses, behind a prefix operator or not. -/
inductive Operand where
  | name (lead : Option UnaryOperator) (x : Identifier)
  | literal (lead : Option UnaryOperator) (l : Literal)
  | group (lead : Option UnaryOperator) (first : Operand) (rest : List (BinaryOperator × Operand))

/-- A prefix operator that may be missing. -/
def leadText : Option UnaryOperator → String
  | none => ""
  | some op => op.symbol ++ " "

def leading : Option UnaryOperator → Expression → Expression
  | none, e => e
  | some op, e => .unary op e 0

mutual

/-- The tokens of an operand with a blank between each two. -/
def Operand.text : Operand → String
  | .name lead x => leadText lead ++ x.name
  | .literal lead l => leadText lead ++ l.text
  | .group lead first rest => leadText lead ++ ("( " ++ first.text ++ tailText rest ++ " )")

/-- The operators of a sequence with their right operands. -/
def tailText : List (BinaryOperator × Operand) → String
  | [] => ""
  | (op, operand) :: rest => " " ++ op.symbol ++ " " ++ operand.text ++ tailText rest

end

mutual

/-- The expression of an operand. A prefix operator belongs to what stands right behind it. -/
def Operand.tree : Operand → Expression
  | .name lead x => leading lead (.reference ⟨x.name, false, 0, []⟩)
  | .literal lead l => leading lead (.constant l.type l.text 0)
  | .group lead first rest => leading lead (grouped first.tree (tailTrees rest))

def tailTrees : List (BinaryOperator × Operand) → Tail
  | [] => []
  | (op, operand) :: rest => (op, operand.tree) :: tailTrees rest

end

/-- Operands with binary operators between them. -/
structure Sequence where
  first : Operand
  rest : List (BinaryOperator × Operand)

namespace Sequence

def text (s : Sequence) : String := s.first.text ++ tailText s.rest

/-- The expression that precedence climbing makes of a sequence. -/
def tree (s : Sequence) : Expression := grouped s.first.tree (tailTrees s.rest)

end Sequence

/-- Induction over operands, with the claim for every operand in parentheses. -/
@[elab_as_elim]
theorem Operand.induct {motive : Operand → Prop}
    (name : ∀ lead x, motive (.name lead x)) (literal : ∀ lead l, motive (.literal lead l))
    (group : ∀ lead first rest, motive first → (∀ p ∈ rest, motive p.2) →
      motive (.group lead first rest))
    (operand : Operand) : motive operand := by
  refine @Operand.rec motive (fun rest => ∀ p ∈ rest, motive p.2) (fun p => motive p.2)
    name literal group ?_ ?_ ?_ operand
  · intro p h
    cases h
  · intro _ _ hfirst hrest
    exact List.forall_mem_cons.2 ⟨hfirst, hrest⟩
  · intro _ _ h
    exact h

namespace Grammar

open Source Grammar.Parser

variable {expr : Parser Expr} {first : Operand} {rest : List (BinaryOperator × Operand)}

/-- An atom is an operand, with a prefix operator or without one. -/
theorem ReadsAtom.leading {text : String} {e : Expression} (h : ReadsAtom expr text.toList e)
    (lead : Option UnaryOperator) :
    ReadsOperand expr (leadText lead ++ text).toList (leading lead e) := by
  cases lead with
  | none =>
    rw [leadText, String.empty_append]
    exact h.operand
  | some op =>
    have hgap (cs : List Char) : pastTrivia ([' '] ++ cs) = pastTrivia cs := pastTrivia_space cs
    have hread := h.unary op 0 hgap (fun _ _ => rfl)
    rw [leadText, String.append_assoc, String.toList_append, String.toList_append]
    exact hread

theorem spellsTail_tailText (h : ∀ p ∈ rest, ReadsOperand expr p.2.text.toList p.2.tree)
    (stop : List Char) :
    SpellsTail expr stop (tailTrees rest) ((tailText rest).toList ++ stop) := by
  induction rest with
  | nil => exact .nil
  | cons p rest ih =>
    obtain ⟨op, operand⟩ := p
    obtain ⟨hoperand, hrest⟩ := List.forall_mem_cons.1 h
    have htext : (tailText ((op, operand) :: rest)).toList ++ stop =
        ' ' :: (op.symbol.toList ++ ' ' :: (operand.text.toList ++ ((tailText rest).toList ++ stop))) := by
      simp [tailText]
    rw [tailTrees, htext]
    exact .cons hoperand (ih hrest)

/-- A sequence is read as precedence climbing groups it, if its operands are read. -/
theorem reads_sequence {stop : List Char} (hfirst : ReadsOperand expr first.text.toList first.tree)
    (hrest : ∀ p ∈ rest, ReadsOperand expr p.2.text.toList p.2.tree) (hstop : Stops stop) :
    Reads (expressionOf expr) (first.text.toList ++ ((tailText rest).toList ++ stop))
      (·.Means (grouped first.tree (tailTrees rest))) stop :=
  reads_grouped hfirst (spellsTail_tailText hrest stop) hstop

theorem length_text_le_tailText {p : BinaryOperator × Operand} (hp : p ∈ rest) :
    p.2.text.length ≤ (tailText rest).length := by
  induction rest with
  | nil => cases hp
  | cons q rest ih =>
    rw [tailText]
    simp only [String.length_append]
    rcases List.mem_cons.1 hp with rfl | hp
    · omega
    · have := ih hp
      omega

/-- An operand is read at any depth that is not below the length of its text. -/
theorem readsOperand_text (operand : Operand) :
    ∀ depth, operand.text.length ≤ depth →
      ReadsOperand (nestedExpression depth) operand.text.toList operand.tree := by
  induction operand using Operand.induct with
  | name lead x =>
    intro depth _
    exact (readsAtom_name (.inl ⟨x.isIdentifier, x.notReserved⟩) 0).leading lead
  | literal lead l =>
    intro depth _
    have hrange (h : l.type = .integer) : word? (decimal l.text) ≠ none := by
      have hle := l.inRange h
      have hw : isWord (decimal l.text) = true := by
        rw [isWord, decide_eq_true_iff]
        omega
      rw [word?, if_pos hw]
      exact Option.some_ne_none _
    exact (readsAtom_literal l.spelling hrange 0).leading lead
  | group lead first rest ihf ihr =>
    intro depth hdepth
    have hlength : (Operand.group lead first rest).text.length =
        (leadText lead).length + (first.text.length + (tailText rest).length + 4) := by
      have hopen : "( ".length = 2 := rfl
      have hclose : " )".length = 2 := rfl
      simp only [Operand.text, String.length_append]
      omega
    obtain ⟨depth, rfl⟩ : ∃ d, depth = d + 1 := ⟨depth - 1, by omega⟩
    have hfirst := ihf depth (by omega)
    have hrest : ∀ p ∈ rest, ReadsOperand (nestedExpression depth) p.2.text.toList p.2.tree := by
      intro p hp
      have hle := length_text_le_tailText hp
      exact ihr p hp depth (by omega)
    refine ReadsAtom.leading ?_ lead
    have htext : ("( " ++ first.text ++ tailText rest ++ " )").toList =
        '(' :: ([' '] ++ (first.text.toList ++ (tailText rest).toList ++ ([' '] ++ [')']))) := by
      simp
    rw [htext]
    refine readsAtom_group (fun behind => ?_) fun behind => ?_
    · rw [List.cons_append, List.nil_append, pastTrivia_space, List.append_assoc,
        pastTrivia_of_starts hfirst.starts, nestedExpression_succ]
      exact reads_sequence hfirst hrest (stops_space rfl rfl behind)
    · rw [List.cons_append, List.nil_append, pastTrivia_space, pastTrivia_of_isSolid rfl]

end Grammar

/-- Every flat sequence is read, and as the expression that precedence climbing makes of it: the operators
of a higher precedence bind tighter, those of one precedence associate to the left, and a prefix operator
binds tighter than all of them. -/
theorem Sequence.readExpression_text (s : Sequence) :
    ∃ e, readExpression s.text = .ok e ∧ e.unlined = s.tree.unlined := by
  have hlength : s.text.toList.length = s.first.text.length + (tailText s.rest).length := by
    rw [text, String.toList_append, List.length_append, String.length_toList, String.length_toList]
  have hfirst := Grammar.readsOperand_text s.first s.text.toList.length (by omega)
  have hrest : ∀ p ∈ s.rest,
      Grammar.ReadsOperand (Grammar.nestedExpression s.text.toList.length) p.2.text.toList p.2.tree := by
    intro p hp
    have hle := Grammar.length_text_le_tailText hp
    exact Grammar.readsOperand_text p.2 _ (by omega)
  have hread := Grammar.reads_sequence hfirst hrest Grammar.stops_nil
  have hsplit : s.first.text.toList ++ ((tailText s.rest).toList ++ []) = s.text.toList := by
    rw [List.append_nil, text, String.toList_append]
  rw [hsplit, ← Grammar.nestedExpression_succ] at hread
  refine Grammar.readExpression_eq_ok ?_ hread
  rw [text, String.toList_append]
  exact hfirst.starts.append _

end GalecAudit
