import GalecAudit.Markup.Event

/-!
# Unreadable manifests

Why a manifest or a container listing cannot be read, and on which line.
-/
namespace GalecAudit

inductive ManifestError where
  | malformed (line : Nat) (fault : Markup.Fault)
  | missingAttribute (element name : String) (line : Nat)
  | invalidDimension (text : String) (line : Nat)
  | unknownType (word : String) (line : Nat)
deriving DecidableEq, Repr, Inhabited

namespace ManifestError

def line : ManifestError → Nat
  | malformed line _ | missingAttribute _ _ line | invalidDimension _ line
  | unknownType _ line => line

def message : ManifestError → String
  | malformed line fault => s!"malformed XML near line {line}: {fault.message}"
  | missingAttribute element name line => s!"<{element}> on line {line} has no `{name}` attribute"
  | invalidDimension text line => s!"invalid dimension size `{text}` on line {line}"
  | unknownType word line => s!"unknown variable type `{word}` on line {line}"

end ManifestError

namespace Markup.Element

/-- The value of an attribute that may be missing. -/
def optional (e : Element) (key : String) : Except ManifestError (Option String) :=
  (e.attributes.value? key).mapError (ManifestError.malformed e.line)

/-- The value of an attribute that has to be there. -/
def required (e : Element) (key : String) : Except ManifestError String :=
  match e.optional key with
  | .ok (some value) => .ok value
  | .ok none => .error (.missingAttribute e.name key e.line)
  | .error error => .error error

end Markup.Element

/-- Follows the events of a source with a state. The first element that cannot be read ends it, and
only behind all elements does a fault of the markup. -/
def foldEvents {σ : Type} (step : σ → Markup.Event → Except ManifestError σ) (state : σ)
    (reading : Markup.Reading Markup.Event) : Except ManifestError σ := do
  let state ← reading.items.foldlM step state
  match reading.fault with
  | some (line, fault) => .error (.malformed line fault)
  | none => .ok state

end GalecAudit
