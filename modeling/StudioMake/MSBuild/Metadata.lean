import StudioMake.Text.Split
import StudioMake.Tool.Basic
import StudioMake.Xml.Element

/-!
# Metadata references

A setting may refer to its value so far, or to that of another setting of the same tool, as
`%(Name)`.
-/

set_option autoImplicit false

namespace StudioMake.MSBuild

/-- Replaces references by the current values; a setting without a value is empty. -/
def expandMetadataFrom (current : Settings) : List Char → List Char
  | [] => []
  | '%' :: '(' :: rest =>
    match h : Text.cut? ')' rest with
    | none => '%' :: '(' :: rest
    | some (name, after) =>
      have := Text.length_of_cut? h
      ((current.find? (String.ofList name)).getD "").toList ++ expandMetadataFrom current after
  | c :: rest => c :: expandMetadataFrom current rest
termination_by l => l.length

def expandMetadata (value : String) (current : Settings) : String :=
  Text.trimChar ';' (String.ofList (expandMetadataFrom current value.toList))

def trimmedText (e : Xml.Element) : String := Text.trim e.text

def childText? (e : Xml.Element) (name : String) : Option String :=
  (e.childNamed? name).map trimmedText

end StudioMake.MSBuild
