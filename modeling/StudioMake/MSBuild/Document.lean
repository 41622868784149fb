import StudioMake.MSBuild.FilterTree
import StudioMake.MSBuild.Items
import StudioMake.Project.Location

/-!
# MSBuild projects

A `.vcxproj` document is evaluated anew for every configuration that it declares. The files follow
from the final macros of all configurations, and their filters from a document beside the project.
-/

set_option autoImplicit false

namespace StudioMake.MSBuild

open Xml

def globalNames : List String := ["ProjectGuid", "RootNamespace", "Keyword", "ProjectName"]

/-- The text of a property in the first group without a condition that holds it. -/
def global? (root : Element) (name : String) : Option String :=
  let groups := (root.childrenNamed "PropertyGroup").filter fun e => !e.hasAttribute "Condition"
  groups.findSome? fun group => childText? group name

/-- The name of a project: the one it gives itself, unless that is empty, or that of its file. -/
def projectName (l : Location) (root : Element) : String :=
  ((global? root "ProjectName").filter (· ≠ "")).getD l.fileStem

def evaluateItem (fs : FileSystem) (directory : String) (macros : MacroTable) (root : Element)
    (item : ConfigurationItem) : Except Failure Evaluation :=
  (evaluate fs (Pending.ofElements directory root.children)
    { evaluation := .start item.name item.configuration item.platform macros }).map
      fun s => s.evaluation.finish

def sortFiles (fs : FileSystem) (l : Location) (files : List File) : Sorting :=
  match fs.readText (l.absolutePath ++ ".filters") with
  | .error _ => { files }
  | .ok text => ((Element.ofFile? text).map (Sorting.ofDocument files)).getD { files }

def readProject (fs : FileSystem) (l : Location) (macros : MacroTable) (root : Element) :
    Except Failure Project := do
  let version := root.attributeD "ToolsVersion"
  if !globalNames.any (fun name => (global? root name).isSome) && version = "" then
    throw (.noGlobalProperties l.path)
  let name := projectName l root
  let rootNamespace := (global? root "RootNamespace").getD ""
  let items := configurationItems root
  let evaluations ←
    items.mapM (evaluateItem fs l.directory (l.setMacros name rootNamespace macros) root)
  if items.isEmpty then throw (.noConfigurations l.path)
  let linked ← linkItems fs l.directory evaluations (fileItems root)
  let sorting := sortFiles fs l (linked.map LinkedFile.file)
  return { l.project .vcxproj with
    version
    name
    rootNamespace
    guid := (global? root "ProjectGuid").getD ""
    keyword := (global? root "Keyword").getD ""
    projectType := "Visual C++"
    platforms := (items.map ConfigurationItem.platform).eraseDups
    configurations := attachFiles linked (evaluations.map Evaluation.configuration)
    files := sorting.files
    filters := sorting.filters }

end StudioMake.MSBuild
