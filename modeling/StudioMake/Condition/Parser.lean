import StudioMake.Condition.Basic
import StudioMake.Text.Case
import StudioMake.Text.Reader

/-!
# Parsing conditions

`or` joins conjunctions and `and` joins negations, both from left to right; `!` negates a
negation or an atom; an atom is a comparison, a call or a condition in parentheses. Keywords are
whole runs of ASCII letters, in any letter case, and blanks may stand around everything.
-/

set_option autoImplicit false

namespace StudioMake.Condition

open Text
open Text.Reader (just upTo run recursive)

def quoted : Reader Operand :=
  ((just '\'').right (upTo '\'')).map fun s => Operand.split (String.ofList s)

def comparator : Reader (Operand → Operand → Condition) :=
  (((just '=').right (just '=')).map fun _ => Condition.equal).orElse
    (((just '!').right (just '=')).map fun _ => Condition.notEqual)

def comparison : Reader Condition :=
  ((quoted.padded.andThen comparator.padded).andThen quoted.padded).map
    fun read => read.1.2 read.1.1 read.2

def keyword (word : String) : Reader Unit :=
  (((run Char.isAlpha).filter fun l => sameIgnoringCase (String.ofList l) word).map
    fun _ => ()).padded

def predicate (p : Predicate) : Reader Predicate := (keyword p.keyword).map fun _ => p

def application : Reader Condition :=
  (((predicate .pathExists).orElse (predicate .hasTrailingSlash)).andThen
    (quoted.padded.delimited (just '(') (just ')'))).map fun read => .call read.1 read.2

def group (condition : Reader Condition) : Reader Condition :=
  condition.delimited (just '(').padded (just ')').padded

def atom (condition : Reader Condition) : Reader Condition :=
  (comparison.orElse (application.orElse (group condition))).padded

def negation (condition : Reader Condition) : Reader Condition :=
  recursive fun negation => (((just '!').padded.right negation).map .not).orElse (atom condition)

def conjunction (condition : Reader Condition) : Reader Condition :=
  (negation condition).foldl ((keyword "and").right (negation condition)) .and

def disjunction (condition : Reader Condition) : Reader Condition :=
  (conjunction condition).foldl ((keyword "or").right (conjunction condition)) .or

def condition : Reader Condition := recursive disjunction

/-- The condition that a text is, from its start to its end. -/
def parse? (s : String) : Option Condition :=
  match condition s.toList with
  | some (c, ⟨[], _⟩) => some c
  | _ => none

end StudioMake.Condition
