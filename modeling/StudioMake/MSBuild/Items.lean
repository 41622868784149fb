import StudioMake.MSBuild.Evaluation
import StudioMake.Project.Basic
import StudioMake.Project.ForcedInclude

/-!
# Items

The items of a project name its configurations and its files. A file is built by the configurations
under whose final macros its conditions hold and none of its exclusions does.
-/

set_option autoImplicit false

namespace StudioMake.MSBuild

open Xml

structure ConfigurationItem where
  name : String
  configuration : String
  platform : String
deriving DecidableEq

def ConfigurationItem.ofElement (e : Element) : ConfigurationItem :=
  let name := e.attributeD "Include"
  { name
    configuration := (childText? e "Configuration").getD (Configuration.splitName name).1
    platform := (childText? e "Platform").getD (Configuration.splitName name).2 }

def configurationItems (root : Element) : List ConfigurationItem :=
  ((root.childrenNamed "ItemGroup").flatMap (·.childrenNamed "ProjectConfiguration")).map
    ConfigurationItem.ofElement

def fileItemNames : List String :=
  ["ClCompile", "ClInclude", "ResourceCompile", "None", "Text", "CustomBuild", "Midl", "Image"]

structure FileItem where
  group : Element
  element : Element
  paths : List String

def FileItem.ofGroup (group : Element) : List FileItem :=
  (group.children.filter fun e => fileItemNames.contains e.name).filterMap fun element =>
    (element.attribute? "Include").map fun include_ =>
      { group, element, paths := Text.splitList include_ }

def fileItems (root : Element) : List FileItem :=
  (root.childrenNamed "ItemGroup").flatMap FileItem.ofGroup

def saysTrue (e : Element) : Bool := Text.sameIgnoringCase (trimmedText e) "true"

namespace FileItem

def isPresent (fs : FileSystem) (directory : String) (s : Evaluation) (item : FileItem) :
    Except Failure Bool := do
  if ← s.holds fs directory item.group then s.holds fs directory item.element else return false

/-- Whether one of some exclusions is on. Each one that says `true` has its condition looked at. -/
def excludes (fs : FileSystem) (directory : String) (s : Evaluation) (exclusions : List Element) :
    Except Failure Bool :=
  (exclusions.filter saysTrue).foldlM
    (fun excluded e => do return (← s.holds fs directory e) || excluded) false

def isBuilt (fs : FileSystem) (directory : String) (item : FileItem) (s : Evaluation) :
    Except Failure Bool := do
  let present ← item.isPresent fs directory s
  let excluded ← excludes fs directory s (item.element.childrenNamed "ExcludedFromBuild")
  return present && !excluded

def file (directory : String) (configurations : List Configuration) (item : FileItem)
    (excluded : List String) (path : String) : File :=
  { relativePath := path
    absolutePath := .resolve directory path
    name := Path.displayName path
    excluded
    forcedInclude := isForcedInclude configurations path
    precompiledHeader := (item.element.childrenNamed "PrecompiledHeader").any fun e =>
      Text.sameIgnoringCase (trimmedText e) "Create"
    compileAsC := (item.element.childrenNamed "CompileAs").any fun e =>
      trimmedText e = "CompileAsC" }

end FileItem

/-- A file and, for each configuration, whether it is built by it. -/
structure LinkedFile where
  file : File
  built : List Bool

def linkItem (fs : FileSystem) (directory : String) (evaluations : List Evaluation)
    (item : FileItem) : Except Failure (List LinkedFile) := do
  let built ← evaluations.mapM (item.isBuilt fs directory)
  let configurations := evaluations.map Evaluation.configuration
  let excluded :=
    (((configurations.zip built).filter fun entry => !entry.2).map (·.1.name)).eraseDups
  return item.paths.map fun path =>
    { file := item.file directory configurations excluded path, built }

def linkItems (fs : FileSystem) (directory : String) (evaluations : List Evaluation)
    (items : List FileItem) : Except Failure (List LinkedFile) :=
  (items.mapM (linkItem fs directory evaluations)).map List.flatten

def builtIndices (files : List LinkedFile) (position : Nat) : List Nat :=
  (files.zipIdx.filter fun entry => (entry.1.built[position]?).getD false).map Prod.snd

def attachFiles (files : List LinkedFile) (configurations : List Configuration) :
    List Configuration :=
  configurations.zipIdx.map fun entry => { entry.1 with files := builtIndices files entry.2 }

end StudioMake.MSBuild
