import GalecAudit.Diagnostic
import GalecAudit.Language.Block

/-!
# Declarations and manifest

A manifest lists the variables of a block. Whether both name the same variables is checked in both
directions, and the types and roles of those that both name are compared.
-/
namespace GalecAudit

/-- All declarations of a block outside its routines. A protected one hides an entity of its name. -/
def Block.declarations (block : Block) : VariableTable :=
  block.entities.union block.protectedVariables

def missingDeclaration (name : String) (listed : Entry) : Diagnostic :=
  .errorAt .missingDeclaration listed.line
    s!"There is no declaration for the {name} model variable in the Algorithm Code, although it exists under the ModelVariables in the manifest file (line {listed.line})"

def unlistedVariable (name : String) (declared : Entry) : Diagnostic :=
  .errorAt .unlistedVariable declared.line
    s!"The variable {name} is declared in the Algorithm Code (line {declared.line}) but it does not exist under the ModelVariables in the manifest file"

def declaredTypeMismatch (name : String) (listed declared : Entry) : Diagnostic :=
  .errorAt .typeMismatch declared.line
    s!"The {name} variable in the manifest is of type {listed.type.name} and the same variable is of type {declared.type.name} in the algorithm code (line {declared.line}): variable types must match"

def causalityMismatch (name : String) (listed declared : Entry) : Diagnostic :=
  .errorAt .causalityMismatch declared.line
    s!"The blockCausality of the {name} variable is {listed.causality.display} and the causality of the same variable in the algorithm code is {declared.causality.display}: causalities must match (line {declared.line} in the Algorithm code)"

/-- The findings on a variable that is listed and declared. -/
def compareEntries (name : String) (listed declared : Entry) : List Diagnostic :=
  (if listed.type = declared.type then [] else [declaredTypeMismatch name listed declared]) ++
  (if listed.causality.acceptsDeclared declared.causality then []
   else [causalityMismatch name listed declared])

/-- What is listed and not declared, then what is an entity of the block and not listed, then how the
variables differ that are listed as a whole and declared. Elements of arrays have no findings of their
own in the last part. -/
def compareDeclarations (manifest : VariableTable) (block : Block) : List Diagnostic :=
  let declared := block.declarations
  (manifest.toList.filter fun (name, _) => !declared.contains name).map
      (fun (name, listed) => missingDeclaration name listed) ++
    (block.entities.toList.filter fun (name, _) => !manifest.contains name).map
      (fun (name, entity) => unlistedVariable name entity) ++
    manifest.declared.flatMap fun (name, listed) =>
      match declared.get? name with
      | some entry => compareEntries name listed entry
      | none => []

end GalecAudit
