import GalecAudit.Grammar.Expression
import GalecAudit.Proofs.Language.Relabelling
import GalecAudit.Proofs.Source.Induction
import Mathlib.Data.List.Forall2

/-!
# What source trees stand for

The expression that a source tree outside of loops resolves to, up to lines, put together from the
expressions of its parts.
-/
namespace GalecAudit.Source

/-- A source tree outside of loops stands for an expression, up to lines. -/
def Expr.Means (tree : Expr) (e : Expression) : Prop :=
  ∃ e', tree.resolve [] = .ok e' ∧ e'.unlined = e.unlined

/-- The operators of a chain with their right operands make `e` of the operand in front of them. -/
def Completes (left e : Expression) (rest : List (BinaryOperator × Expr)) : Prop :=
  ∀ left' line, left'.unlined = left.unlined →
    ∃ e', resolveChain [] line left' rest = .ok e' ∧ e'.unlined = e.unlined

variable {left right e : Expression} {op : BinaryOperator} {first operand : Expr}
  {rest : List (BinaryOperator × Expr)}

theorem completes_nil (e : Expression) : Completes e e [] := fun left' _ h => ⟨left', rfl, h⟩

theorem Completes.cons (hright : operand.Means right)
    (h : Completes (.binary left op right 0) e rest) : Completes left e ((op, operand) :: rest) := by
  intro left' line hleft
  obtain ⟨right', hresolve, hr⟩ := hright
  have hbinary : Expression.unlined (.binary left' op right' line) =
      Expression.unlined (.binary left op right 0) := by
    simp only [Expression.unlined, Expression.relabel] at hleft hr ⊢
    rw [hleft, hr]
  obtain ⟨e', he, heq⟩ := h _ line hbinary
  refine ⟨e', ?_, heq⟩
  rw [resolveChain, hresolve]
  exact he

theorem Completes.chained (h : Completes left e rest) (hfirst : first.Means left) (line : Nat) :
    (Grammar.chained first rest line).Means e := by
  obtain ⟨left', hresolve, hleft⟩ := hfirst
  obtain ⟨e', he, heq⟩ := h left' line hleft
  refine ⟨e', ?_, heq⟩
  cases rest with
  | nil =>
    cases he
    exact hresolve
  | cons p rest =>
    rw [Grammar.chained, if_neg (by simp), Expr.resolve, hresolve]
    exact he

theorem resolveSegments_singleton {segment : Segment Expr} {x : String}
    (h : segment.resolve [] = .ok (x, [])) : resolveSegments [] [segment] = .ok [(x, [])] := by
  rw [resolveSegments_eq_mapM, List.mapM_cons, h]
  rfl

theorem joined_singleton (x : String) (line : Nat) :
    joined false [(x, [])] line = ⟨x, false, line, []⟩ := by
  rw [joined]
  simp

/-- What several trees resolve to, one by one. -/
theorem resolveAll_of_means {es : List Expression} {trees : List Expr}
    (h : List.Forall₂ (fun e (tree : Expr) => tree.Means e) es trees) :
    ∃ out, resolveAll [] trees = .ok out ∧ out.map Expression.unlined = es.map Expression.unlined := by
  induction h with
  | nil => exact ⟨[], rfl, rfl⟩
  | cons hfirst _ ih =>
    obtain ⟨e', hresolve, he⟩ := hfirst
    obtain ⟨out, hout, hes⟩ := ih
    refine ⟨e' :: out, ?_, by rw [List.map_cons, List.map_cons, he, hes]⟩
    rw [resolveAll, hresolve, hout]
    rfl

theorem resolveArms_of_means {arms : List (Expression × Expression)} {trees : List (Expr × Expr)}
    (h : List.Forall₂ (fun arm (tree : Expr × Expr) => tree.1.Means arm.1 ∧ tree.2.Means arm.2)
      arms trees) :
    ∃ out, resolveArms [] trees = .ok out ∧
      out.map (fun arm => (arm.1.unlined, arm.2.unlined)) =
        arms.map fun arm => (arm.1.unlined, arm.2.unlined) := by
  induction h with
  | nil => exact ⟨[], rfl, rfl⟩
  | @cons arm tree _ _ hfirst _ ih =>
    obtain ⟨⟨c, hc, hcu⟩, v, hv, hvu⟩ := hfirst
    obtain ⟨out, hout, harms⟩ := ih
    refine ⟨(c, v) :: out, ?_, by rw [List.map_cons, List.map_cons, hcu, hvu, harms]⟩
    rw [resolveArms, hc, hv, hout]
    rfl

namespace Expr.Means

variable {e : Expression}

theorem congr {tree : Expr} {e' : Expression} (h : tree.Means e) (he : e.unlined = e'.unlined) :
    tree.Means e' := by
  obtain ⟨e'', hresolve, heq⟩ := h
  exact ⟨e'', hresolve, heq.trans he⟩

theorem unary {operand : Expr} (h : operand.Means e) (op : UnaryOperator) (line line' : Nat) :
    (Expr.unary op operand line).Means (.unary op e line') := by
  obtain ⟨e', hresolve, he⟩ := h
  refine ⟨.unary op e' line, ?_, ?_⟩
  · rw [resolve, hresolve]
    rfl
  · exact congrArg (Expression.unary op · 0) he

theorem paren {inner : Expr} (h : inner.Means e) (line : Nat) : (Expr.paren inner line).Means e := h

theorem literal {type : PrimitiveType} {text : String}
    (h : type = .integer → word? (decimal text) ≠ none) (line line' : Nat) :
    (Expr.literal type text line).Means (.constant type text line') := by
  refine ⟨.constant type text line, ?_, rfl⟩
  rw [resolve, if_neg]
  rintro ⟨ht, hw⟩
  exact h ht hw

/-- An access that consists of one segment without variables in its subscripts. -/
theorem access {segment : Segment Expr} {x : String} (h : segment.resolve [] = .ok (x, []))
    (line line' : Nat) :
    (Expr.access ⟨false, [segment], line⟩).Means (.reference ⟨x, false, line', []⟩) := by
  refine ⟨.reference ⟨x, false, line, []⟩, ?_, rfl⟩
  rw [resolve, iteratorValue?_nil]
  simp only [resolveSegments_singleton h]
  exact congrArg (fun r => Except.ok (Expression.reference r)) (joined_singleton x line)

section Lists

variable {es : List Expression} {trees : List Expr}
  (h : List.Forall₂ (fun e (tree : Expr) => tree.Means e) es trees)
include h

theorem array (text : String) (line line' : Nat) :
    (Expr.array trees text line).Means (.array es line') := by
  obtain ⟨out, hout, hes⟩ := resolveAll_of_means h
  refine ⟨.array out line, ?_, ?_⟩
  · rw [resolve, hout]
    rfl
  · simp only [Expression.unlined, Expression.relabel, Expression.relabelAll_eq_map] at hes ⊢
    exact congrArg (Expression.array · 0) hes

theorem call (name : String) (line line' : Nat) :
    (Expr.call ⟨name, trees, line⟩).Means (.call name es line') := by
  obtain ⟨out, hout, hes⟩ := resolveAll_of_means h
  refine ⟨.call name out line, ?_, ?_⟩
  · rw [resolve, hout]
    rfl
  · simp only [Expression.unlined, Expression.relabel, Expression.relabelAll_eq_map] at hes ⊢
    exact congrArg (Expression.call name · 0) hes

end Lists

theorem size {segment : Segment Expr} {x : String} {dimension : Expr}
    (h : segment.resolve [] = .ok (x, [])) (hd : dimension.Means e) (al al' line line' : Nat) :
    (Expr.size ⟨false, [segment], al⟩ dimension line).Means
      (.call "size" [.reference ⟨x, false, al', []⟩, e] line') := by
  obtain ⟨e', hresolve, he⟩ := hd
  refine ⟨.call "size" [.reference ⟨x, false, al, []⟩, e'] line, ?_, ?_⟩
  · rw [resolve, resolveSegments_singleton h, hresolve, ← joined_singleton x al]
    rfl
  · simp only [Expression.unlined, Expression.relabel, Expression.relabelAll] at he ⊢
    rw [he]
    rfl

theorem conditional {c v o : Expression} {tc tv other : Expr} {arms : List (Expression × Expression)}
    {trees : List (Expr × Expr)} (hc : tc.Means c) (hv : tv.Means v)
    (harms : List.Forall₂ (fun arm (tree : Expr × Expr) => tree.1.Means arm.1 ∧ tree.2.Means arm.2)
      arms trees) (ho : other.Means o) (line line' : Nat) :
    (Expr.conditional tc tv trees other line).Means (.conditional c v arms o line') := by
  obtain ⟨c', hresolve, hcu⟩ := hc
  obtain ⟨v', hvresolve, hvu⟩ := hv
  obtain ⟨arms', harmsresolve, harmsu⟩ := resolveArms_of_means harms
  obtain ⟨o', horesolve, hou⟩ := ho
  refine ⟨.conditional c' v' arms' o' line, ?_, ?_⟩
  · rw [resolve, hresolve, hvresolve, harmsresolve, horesolve]
    rfl
  · simp only [Expression.unlined, Expression.relabel, Expression.relabelArms_eq_map] at hcu hvu harmsu hou ⊢
    rw [hcu, hvu, harmsu, hou]

end Expr.Means

end GalecAudit.Source
