import StudioMake.Text.Case
import StudioMake.Text.Decimal
import StudioMake.Text.Split
import StudioMake.Tool.Basic

/-!
# Typed settings

A table gives the kind of each known setting. A setting whose text does not fit its kind is read as
text.
-/

set_option autoImplicit false

namespace StudioMake

inductive PropertyKind where
  | text
  /-- Entries between semicolons. -/
  | list
  /-- Entries between semicolons or blanks. -/
  | words
  | bool
  | number
deriving DecidableEq

inductive PropertyValue where
  | text (s : String)
  | list (items : List String)
  | bool (b : Bool)
  | number (n : Int)
deriving DecidableEq

namespace PropertyKind

open Tool

def table : List (String × List (PropertyKind × List String)) :=
  [(compiler,
      [(list, ["AdditionalIncludeDirectories", "AdditionalUsingDirectories",
          "PreprocessorDefinitions", "UndefinePreprocessorDefinitions", "ForcedIncludeFiles",
          "DisableSpecificWarnings"]),
       (number, ["Optimization", "WarningLevel", "RuntimeLibrary", "DebugInformationFormat",
          "UsePrecompiledHeader", "CompileAs", "ExceptionHandling", "BasicRuntimeChecks"]),
       (bool, ["MinimalRebuild", "WarnAsError", "RuntimeTypeInfo", "BufferSecurityCheck",
          "EnableIntrinsicFunctions", "EnableFunctionLevelLinking", "WholeProgramOptimization",
          "Detect64BitPortabilityProblems"])]),
   (linker,
      [(words, ["AdditionalDependencies"]),
       (list, ["AdditionalLibraryDirectories", "IgnoreDefaultLibraryNames"]),
       (bool, ["GenerateDebugInformation"]),
       (number, ["LinkIncremental", "SubSystem", "TargetMachine", "OptimizeReferences",
          "EnableCOMDATFolding"])]),
   (librarian,
      [(words, ["AdditionalDependencies"]),
       (list, ["AdditionalLibraryDirectories"]),
       (bool, ["IgnoreAllDefaultLibraries"])]),
   (resourceCompiler, [(list, ["AdditionalIncludeDirectories", "PreprocessorDefinitions"])]),
   (preBuildEvent, [(bool, ["ExcludedFromBuild"])]),
   (preLinkEvent, [(bool, ["ExcludedFromBuild"])]),
   (postBuildEvent, [(bool, ["ExcludedFromBuild"])])]

def ofSetting (tool name : String) : PropertyKind :=
  match ((table.lookup tool).getD []).find? fun entry => entry.2.contains name with
  | some (kind, _) => kind
  | none => .text

end PropertyKind

namespace PropertyValue

def bool? (s : String) : Option Bool :=
  if Text.sameIgnoringCase (Text.trim s) "true" then some true
  else if Text.sameIgnoringCase (Text.trim s) "false" then some false
  else none

def decode (kind : PropertyKind) (raw : String) : PropertyValue :=
  match kind with
  | .text => .text raw
  | .list => .list (Text.splitList raw)
  | .words => .list (Text.splitWords raw)
  | .bool => ((bool? raw).map PropertyValue.bool).getD (.text raw)
  | .number => ((Text.number? raw).map PropertyValue.number).getD (.text raw)

/-- The entries of a value; a text that is not blank is one entry. -/
def toList : PropertyValue → List String
  | .list items => items
  | .text s => if Text.trim s = "" then [] else [Text.trim s]
  | _ => []

def toBool? : PropertyValue → Option Bool
  | .bool b => some b
  | .text s => bool? s
  | _ => none

def toNumber? : PropertyValue → Option Int
  | .number n => some n
  | .text s => Text.number? s
  | _ => none

end PropertyValue

end StudioMake
