/-!
# Styles

Terminal styles of parts of a text. Without colours every part stays as it is.
-/
namespace GalecAudit

inductive Style where
  | bold
  | green
  | boldGreen
  | boldRed
  | boldYellow
deriving DecidableEq, Repr, Inhabited

namespace Style

/-- The parameters of the control sequence that begins a style. -/
def parameters : Style → String
  | bold => "1"
  | green => "32"
  | boldGreen => "1;32"
  | boldRed => "1;31"
  | boldYellow => "1;33"

def start (style : Style) : String := "\x1b[" ++ style.parameters ++ "m"

/-- The control sequence that ends every style. -/
def reset : String := "\x1b[0m"

/-- Begins the style anew behind every reset inside a text. -/
def resume (start : List Char) : List Char → List Char
  | '\x1b' :: '[' :: '0' :: 'm' :: rest => reset.toList ++ start ++ resume start rest
  | c :: rest => c :: resume start rest
  | [] => []

/-- A text in a style, if colours are used. -/
def paint (style : Style) (colour : Bool) (text : String) : String :=
  if colour then
    style.start ++ String.ofList (resume style.start.toList text.toList) ++ reset
  else text

end Style
end GalecAudit
