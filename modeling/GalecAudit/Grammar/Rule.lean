/-!
# Grammar rules

The named rules of the grammar. A syntax error lists the rules that were tried at the furthest place,
in the order of this list.
-/
namespace GalecAudit.Grammar

inductive Rule where
  | endOfInput
  | ident
  | quotedName
  | kwBlock
  | kwProtected
  | kwPublic
  | kwEnd
  | kwRecord
  | kwAlgorithm
  | kwSignals
  | kwSignal
  | kwIf
  | kwThen
  | kwElseif
  | kwElse
  | kwFor
  | kwIn
  | kwLoop
  | kwLimit
  | kwSelf
  | kwSize
  | primitiveType
  | dataFlowDirection
  | parameterDirection
  | functionKind
  | signalNegation
  | booleanLiteral
  | realLiteral
  | integerLiteral
  | opOr
  | opAnd
  | opEquality
  | opRelational
  | opAdditive
  | opMultiplicative
  | opPower
  | opUnary
  | algorithmCode
  | standaloneExpression
  | block
  | stateEntityDeclaration
  | protectedSection
  | protectedVariable
  | recordDeclaration
  | signalDeclaration
  | publicSection
  | functionDeclaration
  | signalInterface
  | parameterDeclaration
  | localSection
  | variableDeclaration
  | recordType
  | dimensions
  | dimension
  | derivedDimension
  | rangeSpecification
  | rangeBound
  | boundKind
  | signedNumber
  | negative
  | statement
  | singleAssignment
  | multiAssignment
  | callStatement
  | ifStatement
  | elseifBranch
  | elseBranch
  | condition
  | signalCondition
  | signalMembership
  | forStatement
  | loopHeader
  | loopIterator
  | signalStatement
  | limitStatement
  | limitTarget
  | expression
  | orExpression
  | andExpression
  | equalityExpression
  | relationalExpression
  | additiveExpression
  | multiplicativeExpression
  | powerExpression
  | unaryExpression
  | ifExpression
  | elseifExpression
  | parenthesized
  | arrayConstructor
  | sizeQuery
  | functionCall
  | constant
  | reference
  | stateReference
  | localReference
  | referenceSegment
  | subscripts
deriving DecidableEq, Repr, Inhabited

namespace Rule

/-- Every rule, in the order in which an error lists them. -/
def all : List Rule :=
  [.endOfInput, .ident, .quotedName, .kwBlock, .kwProtected, .kwPublic, .kwEnd, .kwRecord,
   .kwAlgorithm, .kwSignals, .kwSignal, .kwIf, .kwThen, .kwElseif, .kwElse, .kwFor, .kwIn, .kwLoop,
   .kwLimit, .kwSelf, .kwSize, .primitiveType, .dataFlowDirection, .parameterDirection,
   .functionKind, .signalNegation, .booleanLiteral, .realLiteral, .integerLiteral, .opOr, .opAnd,
   .opEquality, .opRelational, .opAdditive, .opMultiplicative, .opPower, .opUnary, .algorithmCode,
   .standaloneExpression, .block, .stateEntityDeclaration, .protectedSection, .protectedVariable,
   .recordDeclaration, .signalDeclaration, .publicSection, .functionDeclaration, .signalInterface,
   .parameterDeclaration, .localSection, .variableDeclaration, .recordType, .dimensions, .dimension,
   .derivedDimension, .rangeSpecification, .rangeBound, .boundKind, .signedNumber, .negative,
   .statement, .singleAssignment, .multiAssignment, .callStatement, .ifStatement, .elseifBranch,
   .elseBranch, .condition, .signalCondition, .signalMembership, .forStatement, .loopHeader,
   .loopIterator, .signalStatement, .limitStatement, .limitTarget, .expression, .orExpression,
   .andExpression, .equalityExpression, .relationalExpression, .additiveExpression,
   .multiplicativeExpression, .powerExpression, .unaryExpression, .ifExpression, .elseifExpression,
   .parenthesized, .arrayConstructor, .sizeQuery, .functionCall, .constant, .reference,
   .stateReference, .localReference, .referenceSegment, .subscripts]

/-- The name of a rule in an error. -/
def name : Rule → String
  | endOfInput => "EOI"
  | ident => "ident"
  | quotedName => "quoted_name"
  | kwBlock => "kw_block"
  | kwProtected => "kw_protected"
  | kwPublic => "kw_public"
  | kwEnd => "kw_end"
  | kwRecord => "kw_record"
  | kwAlgorithm => "kw_algorithm"
  | kwSignals => "kw_signals"
  | kwSignal => "kw_signal"
  | kwIf => "kw_if"
  | kwThen => "kw_then"
  | kwElseif => "kw_elseif"
  | kwElse => "kw_else"
  | kwFor => "kw_for"
  | kwIn => "kw_in"
  | kwLoop => "kw_loop"
  | kwLimit => "kw_limit"
  | kwSelf => "kw_self"
  | kwSize => "kw_size"
  | primitiveType => "primitive_type"
  | dataFlowDirection => "data_flow_direction"
  | parameterDirection => "parameter_direction"
  | functionKind => "function_kind"
  | signalNegation => "signal_negation"
  | booleanLiteral => "boolean_literal"
  | realLiteral => "real_literal"
  | integerLiteral => "integer_literal"
  | opOr => "op_or"
  | opAnd => "op_and"
  | opEquality => "op_equality"
  | opRelational => "op_relational"
  | opAdditive => "op_additive"
  | opMultiplicative => "op_multiplicative"
  | opPower => "op_power"
  | opUnary => "op_unary"
  | algorithmCode => "algorithm_code"
  | standaloneExpression => "standalone_expression"
  | block => "block"
  | stateEntityDeclaration => "state_entity_declaration"
  | protectedSection => "protected_section"
  | protectedVariable => "protected_variable"
  | recordDeclaration => "record_declaration"
  | signalDeclaration => "signal_declaration"
  | publicSection => "public_section"
  | functionDeclaration => "function_declaration"
  | signalInterface => "signal_interface"
  | parameterDeclaration => "parameter_declaration"
  | localSection => "local_section"
  | variableDeclaration => "variable_declaration"
  | recordType => "record_type"
  | dimensions => "dimensions"
  | dimension => "dimension"
  | derivedDimension => "derived_dimension"
  | rangeSpecification => "range_specification"
  | rangeBound => "range_bound"
  | boundKind => "bound_kind"
  | signedNumber => "signed_number"
  | negative => "negative"
  | statement => "statement"
  | singleAssignment => "single_assignment"
  | multiAssignment => "multi_assignment"
  | callStatement => "call_statement"
  | ifStatement => "if_statement"
  | elseifBranch => "elseif_branch"
  | elseBranch => "else_branch"
  | condition => "condition"
  | signalCondition => "signal_condition"
  | signalMembership => "signal_membership"
  | forStatement => "for_statement"
  | loopHeader => "loop_header"
  | loopIterator => "loop_iterator"
  | signalStatement => "signal_statement"
  | limitStatement => "limit_statement"
  | limitTarget => "limit_target"
  | expression => "expression"
  | orExpression => "or_expression"
  | andExpression => "and_expression"
  | equalityExpression => "equality_expression"
  | relationalExpression => "relational_expression"
  | additiveExpression => "additive_expression"
  | multiplicativeExpression => "multiplicative_expression"
  | powerExpression => "power_expression"
  | unaryExpression => "unary_expression"
  | ifExpression => "if_expression"
  | elseifExpression => "elseif_expression"
  | parenthesized => "parenthesized"
  | arrayConstructor => "array_constructor"
  | sizeQuery => "size_query"
  | functionCall => "function_call"
  | constant => "constant"
  | reference => "reference"
  | stateReference => "state_reference"
  | localReference => "local_reference"
  | referenceSegment => "reference_segment"
  | subscripts => "subscripts"

theorem mem_all (rule : Rule) : rule ∈ all := by cases rule <;> decide

end Rule
end GalecAudit.Grammar
