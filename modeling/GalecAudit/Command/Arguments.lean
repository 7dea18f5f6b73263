/-!
# Arguments

What the words of a command line ask for. Options that hold for every command may stand before and after
its name, and of two values the one behind the name counts. Words that ask for nothing known are refused
as a whole.
-/
namespace GalecAudit

inductive OptionName where
  | config
  | format
  | out
  | noFail
  | verbose
  | json
  | manifest
  | source
  | against
  | noCrossCheck
deriving DecidableEq, Repr, Inhabited

/-- What stands behind an option: nothing, any text, or a path, which is not empty. -/
inductive OptionValue where
  | none
  | text
  | path
deriving DecidableEq, Repr, Inhabited

namespace OptionName

def long : OptionName → String
  | config => "config"
  | format => "format"
  | out => "out"
  | noFail => "no-fail"
  | verbose => "verbose"
  | json => "json"
  | manifest => "manifest"
  | source => "alg"
  | against => "against"
  | noCrossCheck => "no-cross-check"

def short? : OptionName → Option Char
  | out => some 'o'
  | verbose => some 'v'
  | _ => none

def value : OptionName → OptionValue
  | config | out | manifest | source | against => .path
  | format => .text
  | noFail | verbose | json | noCrossCheck => .none

/-- Every other option stands at most once on its side of the name of the command. -/
def isRepeatable : OptionName → Bool
  | source => true
  | _ => false

/-- The options that every command has. -/
def global : List OptionName := [config, format, out, noFail, verbose]

end OptionName

/-- The commands by name. -/
inductive Verb where
  | parse
  | check
  | reconcile
  | audit
deriving DecidableEq, Repr, Inhabited

namespace Verb

def name : Verb → String
  | parse => "parse"
  | check => "check"
  | reconcile => "reconcile"
  | audit => "audit"

def all : List Verb := [parse, check, reconcile, audit]

def ofName? (name : String) : Option Verb := all.find? fun v => v.name == name

/-- The options that only this command has. -/
def options : Verb → List OptionName
  | parse => [.json]
  | check => [.manifest, .source, .against]
  | reconcile => []
  | audit => [.noCrossCheck]

end Verb

/-- An option with its value, which is empty for an option without one. -/
structure Given where
  option : OptionName
  value : String
deriving DecidableEq, Repr, Inhabited

/-- Options and other words, and for the words before a command the rest from its name on. -/
structure Words where
  given : List Given := []
  operands : List String := []
  rest : Option (String × List String) := none
deriving DecidableEq, Repr, Inhabited

namespace Words

def addOperand (w : Words) (word : String) : Words := { w with operands := word :: w.operands }

/-- Whether a word can be the value of the option before it. -/
def isValue (word : String) : Bool :=
  match word.toList with
  | '-' :: _ :: _ => false
  | _ => true

/-- A word that names an option, cut at its first equals sign. -/
def splitValue (cs : List Char) : List Char × Option (List Char) :=
  match cs.dropWhile (· != '=') with
  | _ :: value => (cs.takeWhile (· != '='), some value)
  | [] => (cs, none)

/-- What one word gives: options without the value of the last one, if that has to come next. -/
structure OptionWord where
  given : List Given
  pending : Option OptionName

/-- An option by its long name. -/
def longOption? (allowed : List OptionName) (cs : List Char) : Option OptionWord :=
  let (name, value) := splitValue cs
  match allowed.find? fun o => o.long == String.ofList name with
  | none => none
  | some option =>
    match option.value, value with
    | .none, none => some ⟨[⟨option, ""⟩], none⟩
    | .none, some _ => none
    | _, some value => some ⟨[⟨option, String.ofList value⟩], none⟩
    | _, none => some ⟨[], some option⟩

/-- Options by their letters. The value of an option with one is the rest of the word, or the next
word. -/
def shortOptions? (allowed : List OptionName) : List Char → Option OptionWord
  | [] => some ⟨[], none⟩
  | c :: rest =>
    match allowed.find? fun o => o.short? == some c with
    | none => none
    | some option =>
      match option.value with
      | .none =>
        (shortOptions? allowed rest).map fun w => ⟨⟨option, ""⟩ :: w.given, w.pending⟩
      | _ =>
        match rest with
        | [] => some ⟨[], some option⟩
        | '=' :: value => some ⟨[⟨option, String.ofList value⟩], none⟩
        | value => some ⟨[⟨option, String.ofList value⟩], none⟩

/-- The option word that a word is, if it is one that is allowed; `none` for an operand. -/
def optionWord? (allowed : List OptionName) (word : String) : Option (Option OptionWord) :=
  match word.toList with
  | '-' :: '-' :: name => some (longOption? allowed name)
  | '-' :: c :: letters => some (shortOptions? allowed (c :: letters))
  | _ => none

/-- Reads words. A row of two hyphens makes all words behind it operands; before the name of a command it
is refused. Where a command is looked for, the first operand is its name. -/
def read? (allowed : List OptionName) (isBeforeCommand : Bool) : List String → Option Words
  | [] => some {}
  | "--" :: rest => if isBeforeCommand then none else some { operands := rest }
  | word :: rest =>
    match optionWord? allowed word with
    | none =>
      if isBeforeCommand then some { rest := some (word, rest) }
      else (read? allowed isBeforeCommand rest).map fun w => w.addOperand word
    | some none => none
    | some (some options) =>
      match options.pending, rest with
      | none, rest =>
        (read? allowed isBeforeCommand rest).map fun w =>
          { w with given := options.given ++ w.given }
      | some option, value :: rest =>
        if isValue value then
          (read? allowed isBeforeCommand rest).map fun w =>
            { w with given := options.given ++ ⟨option, value⟩ :: w.given }
        else none
      | some _, [] => none

/-- The values of an option, in their order. -/
def valuesOf (w : Words) (option : OptionName) : List String :=
  (w.given.filter fun g => g.option == option).map Given.value

/-- Whether no option that stands once is repeated and no path is empty. -/
def isRegular (w : Words) (allowed : List OptionName) : Bool :=
  (allowed.all fun o => o.isRepeatable || decide ((w.valuesOf o).length ≤ 1)) &&
    (w.given.all fun g => g.option.value != .path || !g.value.isEmpty) &&
    w.operands.all fun path => !path.isEmpty

end Words

/-- The command that is asked for, with what it works on. -/
inductive Command where
  | parse (path : String) (asJson : Bool)
  | check (manifest : String) (sources : List String) (against : Option String)
  | reconcile (first second : String)
  | audit (dir : String) (noCrossCheck : Bool)
deriving DecidableEq, Repr, Inhabited

structure Invocation where
  config : Option String
  format : Option String
  out : Option String
  noFail : Bool
  command : Command
deriving DecidableEq, Repr, Inhabited

/-- The command of a verb with its words. -/
def Command.ofWords? (verb : Verb) (w : Words) : Option Command :=
  match verb, w.operands with
  | .parse, [path] => some (.parse path (!(w.valuesOf .json).isEmpty))
  | .check, [] =>
    match w.valuesOf .manifest with
    | manifest :: _ =>
      some (.check manifest (w.valuesOf .source) (w.valuesOf .against).head?)
    | [] => none
  | .reconcile, [first, second] => some (.reconcile first second)
  | .audit, [dir] => some (.audit dir (!(w.valuesOf .noCrossCheck).isEmpty))
  | _, _ => none

/-- What the words of a command line ask for, if they are in order. -/
def Invocation.ofWords? (words : List String) : Option Invocation := do
  let before ← Words.read? OptionName.global true words
  let (name, rest) ← before.rest
  let verb ← Verb.ofName? name
  let allowed := OptionName.global ++ verb.options
  let behind ← Words.read? allowed false rest
  if before.isRegular OptionName.global && behind.isRegular allowed then
    let command ← Command.ofWords? verb behind
    let last (option : OptionName) : Option String :=
      ((behind.valuesOf option) ++ before.valuesOf option).head?
    return { config := last .config, format := last .format, out := last .out,
             noFail := (last .noFail).isSome, command }
  else none

end GalecAudit
