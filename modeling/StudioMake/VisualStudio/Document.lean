import StudioMake.Failure
import StudioMake.Project.Location
import StudioMake.VisualStudio.Configuration
import StudioMake.VisualStudio.Files

/-!
# Visual Studio projects

A `.vcproj` document gives the platforms, the configurations and the files of a project, each below
one child of the root.
-/

set_option autoImplicit false

namespace StudioMake.VisualStudio

open Xml

/-- The attributes of which a project has at least one. -/
def globalNames : List String :=
  ["Name", "ProjectType", "Version", "ProjectGUID", "RootNamespace", "Keyword"]

def childrenBelow (root : Element) (name : String) : List Element :=
  ((root.childNamed? name).map Element.children).getD []

def addFiles (p : Project) (files : Element) : Project :=
  let listing := Listing.ofElements files.children
  let linked := readFiles p.directory p.configurations (Listing.files (filterName? files) listing)
  { p with
    configurations := attachFiles 0 linked p.configurations
    files := linked.map LinkedFile.file
    filters := Listing.filters listing }

def readProject (fs : FileSystem) (l : Location) (macros : MacroTable) (root : Element) :
    Except Failure Project :=
  if globalNames.any root.hasAttribute then
    let name := root.attributeD "Name"
    let rootNamespace := root.attributeD "RootNamespace"
    let configurations := readConfigurations fs l.directory (l.setMacros name rootNamespace macros)
      (childrenBelow root "Configurations")
    if configurations.isEmpty then .error (.noConfigurations l.path)
    else
      let p : Project :=
        { l.project .vcproj with
          name
          rootNamespace
          guid := root.attributeD "ProjectGUID"
          keyword := root.attributeD "Keyword"
          projectType := root.attributeD "ProjectType"
          version := root.attributeD "Version"
          platforms := (childrenBelow root "Platforms").filterMap (·.attribute? "Name")
          configurations }
      .ok (((root.childNamed? "Files").map (addFiles p)).getD p)
  else .error (.noGlobalProperties l.path)

end StudioMake.VisualStudio
