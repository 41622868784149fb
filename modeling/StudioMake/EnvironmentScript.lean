import StudioMake.OrderedMap
import StudioMake.Text.Search
import StudioMake.Text.Split

/-!
# Environment scripts

Batch files that set up the environment of the build tools, read for their `SET` statements. Names
of variables agree up to letter case: a later assignment replaces the value of an earlier one and
keeps its spelling and its place.
-/

set_option autoImplicit false

namespace StudioMake.EnvironmentScript

abbrev Variables := OrderedMap String

/-- The value of a name in the environment of a process. An environment is a list of texts
`NAME=VALUE`, and a name is looked up by its text: its value is what follows `name=` in the first
of them that starts so. A name with an equals sign of its own can thus reach into a value. -/
def environmentValue? (environment : Variables) (name : String) : Option String :=
  environment.toList.findSome? fun entry =>
    Text.dropLead? (name ++ "=") (entry.1 ++ "=" ++ entry.2)

example : environmentValue? (.ofList [("A", "B=c")]) "A" = some "B=c" := by decide +kernel

example : environmentValue? (.ofList [("A", "B=c")]) "A=B" = some "c" := by decide +kernel

def lookup (environment assigned : Variables) (name : String) : String :=
  match assigned.findIgnoringCase? name with
  | some (_, value) => value
  | none => (environmentValue? environment name).getD ""

def startsParameter (l : List Char) : Bool :=
  l.head?.any fun c => c == '~' || c.isDigit

def expandFrom (environment assigned : Variables) : List Char → List Char
  | [] => []
  | '%' :: rest =>
    match h : Text.cut? '%' rest with
    | some (name, after) =>
      have := Text.length_of_cut? h
      if startsParameter rest || name.isEmpty then '%' :: expandFrom environment assigned rest
      else
        (lookup environment assigned (String.ofList name)).toList ++
          expandFrom environment assigned after
    | none => '%' :: rest
  | c :: rest => c :: expandFrom environment assigned rest
termination_by l => l.length

/-- Replaces the references `%NAME%`. Values are not looked at again; parameters of the script and
percent signs that close nothing stay. -/
def expandPercent (environment assigned : Variables) (text : String) : String :=
  String.ofList (expandFrom environment assigned text.toList)

def statementBody? (line : String) : Option (List Char) :=
  let trimmed := (Text.trim line).toList
  match if trimmed.head? = some '@' then trimmed.tail else trimmed with
  | c₁ :: c₂ :: c₃ :: body =>
    if Text.sameIgnoringCase (String.ofList [c₁, c₂, c₃]) "set" && body.head?.any Text.isBlank &&
        (body.dropWhile Text.isBlank).head? ≠ some '/' then
      some body
    else none
  | _ => none

def unquote : List Char → List Char
  | '"' :: rest => if rest.getLast? = some '"' then rest.dropLast else rest
  | body => body

def assignment? (line : String) : Option (String × String) := do
  let body ← statementBody? line
  let (name, value) ←
    Text.splitOnce? '=' (String.ofList (unquote (Text.trim (String.ofList body)).toList))
  if Text.trim name = "" then none else return (Text.trim name, value)

def assign (environment assigned : Variables) (name value : String) : Variables :=
  let spelling := ((assigned.findIgnoringCase? name).map Prod.fst).getD name
  assigned.insert spelling (expandPercent environment assigned value)

/-- The variables that a script sets. Each line is trimmed, so a carriage return before its end
does not count. -/
def read (environment : Variables) (script : String) : Variables :=
  (Text.splitAll (· == '\n') script).foldl
    (fun assigned line =>
      match assignment? line with
      | some (name, value) => assign environment assigned name value
      | none => assigned) ∅

end StudioMake.EnvironmentScript
