import GalecAudit.Text.Blank

/-!
# Causalities

The data-flow role of a variable. Manifests spell it as a free text: a text that names no known role
is kept as it is, less the blanks around it.
-/
namespace GalecAudit

inductive Causality where
  | input
  | output
  | parameter
  | constant
  | state
  | routineLocal
  | tunableParameter
  | dependentParameter
  /-- No role is given, as in manifests of equation code. -/
  | unspecified
  | other (text : String)
deriving DecidableEq, Repr, Inhabited

namespace Causality

def ofText (text : String) : Causality :=
  match Text.trim text with
  | "" => unspecified
  | "input" => input
  | "output" => output
  | "parameter" => parameter
  | "constant" => constant
  | "state" => state
  | "local" => routineLocal
  | "tunableParameter" => tunableParameter
  | "dependentParameter" => dependentParameter
  | word => other word

def text : Causality → String
  | input => "input"
  | output => "output"
  | parameter => "parameter"
  | constant => "constant"
  | state => "state"
  | routineLocal => "local"
  | tunableParameter => "tunableParameter"
  | dependentParameter => "dependentParameter"
  | unspecified => ""
  | other word => word

/-- The text shown to a reader, which is never empty for an unspecified role. -/
def display : Causality → String
  | unspecified => "(none)"
  | role => role.text

/-- Variables with these roles take part in the comparison of two manifests. -/
def isInterface : Causality → Bool
  | unspecified | input | output => true
  | _ => false

/-- Whether a variable listed with a role may be declared with another one: tunable and dependent
parameters are declared as parameters, and every other role as itself. -/
def acceptsDeclared : Causality → Causality → Bool
  | tunableParameter, declared | dependentParameter, declared => declared == parameter
  | listed, declared => listed == declared

end Causality
end GalecAudit
