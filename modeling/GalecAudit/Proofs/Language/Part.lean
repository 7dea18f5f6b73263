import GalecAudit.Proofs.Language.Mention

/-!
# Parts of expressions

What stands somewhere in an expression, as an operand, a condition, a branch, an argument or an element.
-/
namespace GalecAudit.Expression

/-- An expression is another one or stands in it, at any depth. -/
inductive PartOf (p : Expression) : Expression → Prop
  | self : PartOf p p
  | left {a op b line} : PartOf p a → PartOf p (.binary a op b line)
  | right {a op b line} : PartOf p b → PartOf p (.binary a op b line)
  | operand {op a line} : PartOf p a → PartOf p (.unary op a line)
  | condition {c v arms o line} : PartOf p c → PartOf p (.conditional c v arms o line)
  | value {c v arms o line} : PartOf p v → PartOf p (.conditional c v arms o line)
  | armCondition {c v o line} {arms : List (Expression × Expression)} {arm} :
      arm ∈ arms → PartOf p arm.1 → PartOf p (.conditional c v arms o line)
  | armValue {c v o line} {arms : List (Expression × Expression)} {arm} :
      arm ∈ arms → PartOf p arm.2 → PartOf p (.conditional c v arms o line)
  | otherwise {c v arms o line} : PartOf p o → PartOf p (.conditional c v arms o line)
  | argument {name line} {args : List Expression} {a} :
      a ∈ args → PartOf p a → PartOf p (.call name args line)
  | element {line} {elements : List Expression} {a} :
      a ∈ elements → PartOf p a → PartOf p (.array elements line)

end GalecAudit.Expression
