/-!
# Statements of a makefile

Assignments, rules and comments as GNU make reads them. Every statement is printed as one or more
whole lines.
-/

set_option autoImplicit false

namespace StudioMake.Makefile

inductive Assignment where
  | simple
  | recursive
  | append
deriving DecidableEq

def Assignment.symbol : Assignment → String
  | .simple => ":="
  | .recursive => "="
  | .append => "+="

inductive Statement where
  | blank
  | comment (text : String)
  | heading (text : String)
  | assign (name : String) (assignment : Assignment) (value : String)
  | assignWords (name : String) (words : List String)
  | assignFor (target name value : String)
  /-- A target without a recipe that stands for its members. -/
  | group (target : String) (fixed members : List String)
  | rule (target : String) (prerequisites recipe : List String)
  /-- A rule that makes an object from a source; both may be patterns. -/
  | object (target source : String) (recipe : List String)
deriving DecidableEq

namespace Statement

def words (l : List String) : String := String.join (l.map (" " ++ ·))

def recipeText (recipe : List String) : String := String.join (recipe.map ("\n\t" ++ ·))

def text : Statement → String
  | .blank => ""
  | .comment text => "# " ++ text
  | .heading text => "#\n# " ++ text ++ "\n#"
  | .assign name assignment value => name ++ " " ++ assignment.symbol ++ " " ++ value
  | .assignWords name words => name ++ " :=" ++ String.join (words.map (" \\\n " ++ ·))
  | .assignFor target name value => target ++ ":" ++ name ++ " := " ++ value
  | .group target fixed members => target ++ ":" ++ words fixed ++ " " ++ " ".intercalate members
  | .rule target prerequisites recipe => target ++ ":" ++ words prerequisites ++ recipeText recipe
  | .object target source recipe => target ++ " : " ++ source ++ recipeText recipe

end Statement

def render (statements : List Statement) : String :=
  String.join (statements.map fun s => s.text ++ "\n")

theorem render_cons (s : Statement) (rest : List Statement) :
    render (s :: rest) = s.text ++ "\n" ++ render rest := by
  simp [render]

theorem render_append (l₁ l₂ : List Statement) : render (l₁ ++ l₂) = render l₁ ++ render l₂ := by
  simp [render, String.join_append]

end StudioMake.Makefile
