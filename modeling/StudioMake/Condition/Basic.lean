import StudioMake.Text.Split

/-!
# Conditions

The conditions that gate parts of an MSBuild project, and the operands they compare: quoted texts
in which `$(Name)` stands for a property.
-/

set_option autoImplicit false

namespace StudioMake

inductive Part where
  | text (s : String)
  | property (name : String)
deriving DecidableEq

abbrev Operand := List Part

inductive Predicate where
  | pathExists
  | hasTrailingSlash
deriving DecidableEq

def Predicate.keyword : Predicate → String
  | .pathExists => "exists"
  | .hasTrailingSlash => "hastrailingslash"

inductive Condition where
  | equal (left right : Operand)
  | notEqual (left right : Operand)
  | call (predicate : Predicate) (argument : Operand)
  | not (c : Condition)
  | and (a b : Condition)
  | or (a b : Condition)
deriving DecidableEq

namespace Operand

def textPart (text : List Char) : Operand :=
  if text.isEmpty then [] else [.text (String.ofList text)]

/-- Splits at each `$(` and the first `)` after it; `text` has been read before. Without such a
`)` the rest is text. -/
def splitFrom (text : List Char) : List Char → Operand
  | [] => textPart text
  | '$' :: '(' :: rest =>
    match h : Text.cut? ')' rest with
    | none => textPart (text ++ '$' :: '(' :: rest)
    | some (name, after) =>
      have := Text.length_of_cut? h
      textPart text ++ .property (String.ofList name) :: splitFrom [] after
  | c :: rest => splitFrom (text ++ [c]) rest
termination_by l => l.length

def split (s : String) : Operand := splitFrom [] s.toList

def written (operand : Operand) : String :=
  String.join (operand.map fun
    | .text s => s
    | .property name => "$(" ++ name ++ ")")

end Operand

end StudioMake
