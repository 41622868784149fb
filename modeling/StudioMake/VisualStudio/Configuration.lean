import StudioMake.VisualStudio.PropertySheet

/-!
# Configuration elements

A configuration is read attribute by attribute. The macros for its name and its directories are set
on the way, so that later attributes, tools and sheets see them, and they stay set for the
configurations that follow.
-/

set_option autoImplicit false

namespace StudioMake.VisualStudio

open Xml

def setOutputMacros (macros : MacroTable) (output : String) : MacroTable :=
  (macros.set "OutDir" output).set "TargetDir" (Path.withTrailingSeparator output)

def setNameMacros (macros : MacroTable) (e : Element) (c : Configuration) : MacroTable :=
  if e.hasAttribute "Name" then
    macros.set "ConfigurationName" c.configurationName
      |>.set "PlatformName" c.platform
      |>.set "Platform" c.platform
  else macros

def readOutput (e : Element) (a : Assembly) : Assembly :=
  match e.attribute? "OutputDirectory" with
  | none => a
  | some raw =>
    let output := a.macros.expand raw
    { a with outputDirectory := output, macros := setOutputMacros a.macros output }

def readIntermediate (e : Element) (a : Assembly) : Assembly :=
  match e.attribute? "IntermediateDirectory" with
  | none => a
  | some raw =>
    let intermediate := a.macros.expand raw
    { a with intermediateDirectory := intermediate, macros := a.macros.set "IntDir" intermediate }

def ownAssembly (macros : MacroTable) (e : Element) : Assembly :=
  let a := readIntermediate e (readOutput e
    { macros := setNameMacros macros e (.ofName (e.attributeD "Name")) })
  { a with tools := collectTools a.macros e a.tools }

def finalMacros (macros : MacroTable) (output intermediate : String) : MacroTable :=
  (setOutputMacros macros output).set "IntDir" intermediate

def readConfiguration (fs : FileSystem) (directory : String) (macros : MacroTable) (e : Element) :
    Configuration × MacroTable :=
  let (sheets, a) := addSheets fs
    (Pending.ofList directory (e.attributeD "InheritedPropertySheets")) [] (ownAssembly macros e)
  let outputDirectory := a.macros.expand a.outputDirectory
  let intermediateDirectory := a.macros.expand a.intermediateDirectory
  let final := finalMacros a.macros outputDirectory intermediateDirectory
  ({ Configuration.ofName (e.attributeD "Name") with
      outputDirectory
      intermediateDirectory
      type := .ofAttribute (e.attributeD "ConfigurationType")
      characterSet := .ofAttribute (e.attributeD "CharacterSet")
      tools := a.tools
      propertySheets := sheets
      attributes := .ofList (e.attributes.map fun item => (item.1, final.expand item.2)) },
    final)

/-- Reads configurations in order, each with the macros that the one before leaves. -/
def readConfigurations (fs : FileSystem) (directory : String) :
    MacroTable → List Element → List Configuration
  | _, [] => []
  | macros, e :: rest =>
    let (c, macros) := readConfiguration fs directory macros e
    c :: readConfigurations fs directory macros rest

end StudioMake.VisualStudio
