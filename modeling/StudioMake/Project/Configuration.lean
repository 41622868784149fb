import StudioMake.Path.Normal
import StudioMake.Tool.Property

/-!
# Configurations

A configuration is one way to build a project, named by a configuration and a platform such as
`Debug|Win32`.
-/

set_option autoImplicit false

namespace StudioMake

inductive ConfigurationType where
  | unknown
  | application
  | dynamicLibrary
  | staticLibrary
  | utility
deriving DecidableEq

namespace ConfigurationType

def ofCode (code : Int) : ConfigurationType :=
  if code = 1 then .application
  else if code = 2 then .dynamicLibrary
  else if code = 4 then .staticLibrary
  else if code = 10 then .utility
  else .unknown

def ofAttribute (value : String) : ConfigurationType :=
  ((Text.number? value).map ofCode).getD .unknown

def ofMSBuild (value : String) : ConfigurationType :=
  match Text.trim value with
  | "Application" => .application
  | "DynamicLibrary" => .dynamicLibrary
  | "StaticLibrary" => .staticLibrary
  | "Utility" => .utility
  | "Makefile" => .utility
  | _ => .unknown

end ConfigurationType

inductive CharacterSet where
  | notSet
  | unicode
  | multiByte
deriving DecidableEq

namespace CharacterSet

def ofAttribute (value : String) : CharacterSet :=
  match Text.trim value with
  | "1" => .unicode
  | "2" => .multiByte
  | _ => .notSet

def ofMSBuild (value : String) : CharacterSet :=
  match Text.trim value with
  | "Unicode" => .unicode
  | "MultiByte" => .multiByte
  | _ => .notSet

end CharacterSet

/-- One way to build a project. Files are given by their index in the project. -/
structure Configuration where
  name : String
  configurationName : String := ""
  platform : String := ""
  outputDirectory : String := ""
  intermediateDirectory : String := ""
  type : ConfigurationType := .unknown
  characterSet : CharacterSet := .notSet
  tools : Tools := ∅
  /-- The property sheets applied, in the order in which they were reached. -/
  propertySheets : List NormalPath := []
  /-- The properties written for the configuration itself. -/
  attributes : OrderedMap String := ∅
  files : List Nat := []
deriving DecidableEq

namespace Configuration

def splitName (name : String) : String × String :=
  (Text.splitOnce? '|' name).getD (name, "")

def ofName (name : String) : Configuration :=
  { name, configurationName := (splitName name).1, platform := (splitName name).2 }

def isTargetChar (c : Char) : Bool := c.isAlphanum || c == '_'

/-- The characters of a text that can stand in the name of a make target. -/
def targetName (s : String) : String := String.ofList (s.toList.filter isTargetChar)

/-- The name of the configuration among make targets. -/
def ruleName (c : Configuration) : String := targetName (c.configurationName ++ c.platform)

def property? (c : Configuration) (tool name : String) : Option PropertyValue :=
  (c.tools.setting? tool name).map (PropertyValue.decode (PropertyKind.ofSetting tool name))

def propertyList (c : Configuration) (tool name : String) : List String :=
  ((c.property? tool name).map PropertyValue.toList).getD []

def propertyBool? (c : Configuration) (tool name : String) : Option Bool :=
  (c.property? tool name).bind PropertyValue.toBool?

def propertyNumber? (c : Configuration) (tool name : String) : Option Int :=
  (c.property? tool name).bind PropertyValue.toNumber?

end Configuration

end StudioMake
