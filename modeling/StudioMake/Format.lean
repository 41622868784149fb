import StudioMake.Text.Search
import StudioMake.Xml.Document

/-!
# File formats

The kinds of file that a project may be handed in as. MSBuild projects for different languages have
the same root element and are told apart by the targets they import.
-/

set_option autoImplicit false

namespace StudioMake

inductive Format where
  | unknown
  | vcproj
  | vcxproj
  | solution
  | csproj
deriving DecidableEq

namespace Format

def name : Format → String
  | .unknown => "unknown"
  | .vcproj => "vcproj"
  | .vcxproj => "vcxproj"
  | .solution => "solution"
  | .csproj => "csproj"

def isSupported : Format → Bool
  | .vcproj | .vcxproj => true
  | _ => false

def isSolution (text : String) : Bool :=
  ["10.00", "11.00"].any fun version =>
    Text.contains ("Microsoft Visual Studio Solution File, Format Version " ++ version) text

def ofTargets? (target : String) : Option Format :=
  if Text.contains "Microsoft.Cpp" target then some .vcxproj
  else if Text.contains "Microsoft.CSharp" target then some .csproj
  else none

/-- The format of a document with a given root; the first import that decides it counts. -/
def ofRoot (root : Xml.Element) : Format :=
  if root.name = "VisualStudioProject" then .vcproj
  else if root.name = "Project" then
    ((root.childrenNamed "Import").findSome? fun e => (e.attribute? "Project").bind ofTargets?).getD
      .unknown
  else .unknown

def ofText (text : String) : Format :=
  if isSolution text then .solution
  else
    match Xml.Element.ofDocument? (String.ofList (text.toList.dropWhile (· == '\uFEFF'))) with
    | some root => ofRoot root
    | none => .unknown

end Format

end StudioMake
