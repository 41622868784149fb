import StudioMake.Condition.Parser
import StudioMake.Failure
import StudioMake.OrderedMap

/-!
# Evaluating conditions

Names of properties agree up to letter case, a name in the same case coming first, and a property
that is not set is empty. Texts are compared up to letter case.
-/

set_option autoImplicit false

namespace StudioMake.Condition

structure Scope where
  properties : OrderedMap String
  directory : String
  files : FileSystem

namespace Scope

/-- The value of a property. Of several other spellings of its name the first one counts, in
whatever order the properties stand. -/
def property (scope : Scope) (name : String) : String :=
  match scope.properties.find? name with
  | some value => value
  | none => ((scope.properties.findIgnoringCase? name).map Prod.snd).getD ""

def expandPart (scope : Scope) : Part → String
  | .text s => s
  | .property name => scope.property name

def expand (scope : Scope) (operand : Operand) : String :=
  String.join (operand.map scope.expandPart)

end Scope

def pathExists (scope : Scope) (path : String) : Bool :=
  !Text.isAllBlank path &&
    (scope.files.entryAt? (NormalPath.resolve scope.directory path)).isSome

def eval (scope : Scope) : Condition → Bool
  | .equal a b => Text.sameIgnoringCase (scope.expand a) (scope.expand b)
  | .notEqual a b => !Text.sameIgnoringCase (scope.expand a) (scope.expand b)
  | .call .pathExists a => pathExists scope (scope.expand a)
  | .call .hasTrailingSlash a => (scope.expand a).toList.getLast?.any Path.isSeparator
  | .not c => !eval scope c
  | .and a b => eval scope a && eval scope b
  | .or a b => eval scope a || eval scope b

/-- Whether a condition holds; one that is left out or blank does. -/
def holds (scope : Scope) : Option String → Except Failure Bool
  | none => .ok true
  | some text =>
    if Text.isAllBlank text then .ok true
    else
      match parse? text with
      | some c => .ok (eval scope c)
      | none => .error (.malformedCondition text)

end StudioMake.Condition
