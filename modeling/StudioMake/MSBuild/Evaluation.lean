import StudioMake.Condition.Evaluation
import StudioMake.MSBuild.Metadata
import StudioMake.MacroTable.Basic
import StudioMake.Project.Configuration
import StudioMake.SheetFile

/-!
# Evaluating a configuration

A project is evaluated for one configuration at a time, element by element. An element whose
condition does not hold is passed over. An import puts the elements of the imported sheet in its
place; a sheet that has been reached before, or that cannot be read, puts nothing.
-/

set_option autoImplicit false

namespace StudioMake.MSBuild

open Xml

structure Evaluation where
  configuration : Configuration
  macros : MacroTable
deriving DecidableEq

namespace Evaluation

/-- Whether the condition of an element holds, if it meets the properties in the order of the
macros. -/
def holds (fs : FileSystem) (directory : String) (s : Evaluation) (e : Element) :
    Except Failure Bool :=
  Condition.holds { properties := s.macros.properties, directory, files := fs }
    (e.attribute? "Condition")

def setField (c : Configuration) (name value : String) : Configuration :=
  if name = "OutDir" then { c with outputDirectory := value }
  else if name = "IntDir" then { c with intermediateDirectory := value }
  else if name = "ConfigurationType" then { c with type := .ofMSBuild value }
  else if name = "CharacterSet" then { c with characterSet := .ofMSBuild value }
  else c

/-- Sets a property, as a macro and as an attribute of the configuration. -/
def setProperty (s : Evaluation) (name raw : String) : Evaluation :=
  let value := s.macros.expand (Text.trim raw)
  let macros :=
    if name = "OutDir" then s.macros.set "TargetDir" (Path.withTrailingSeparator value)
    else s.macros
  { configuration :=
      { setField s.configuration name value with
        attributes := s.configuration.attributes.insert name value }
    macros := macros.set name value }

def defaultDirectories (platform : String) : String × String :=
  if Text.sameIgnoringCase platform "Win32" || platform = "" then
    ("$(SolutionDir)$(Configuration)\\", "$(Configuration)\\")
  else ("$(SolutionDir)$(Platform)\\$(Configuration)\\", "$(Platform)\\$(Configuration)\\")

def start (name configuration platform : String) (macros : MacroTable) : Evaluation :=
  let s : Evaluation :=
    { configuration := { name, configurationName := configuration, platform }
      macros := (macros.set "Configuration" configuration).set "Platform" platform }
  let s := (s.setProperty "OutDir" (defaultDirectories platform).1).setProperty "IntDir"
    (defaultDirectories platform).2
  { s with configuration := { s.configuration with attributes := ∅ } }

def finish (s : Evaluation) : Evaluation :=
  let output := s.configuration.outputDirectory
  { s with
    macros := (s.macros.set "OutDir" output).set "TargetDir" (Path.withTrailingSeparator output) }

/-- The tool that an element of an item definition group sets up. -/
def toolOf (name : String) : String :=
  ([("ClCompile", Tool.compiler), ("Link", Tool.linker), ("Lib", Tool.librarian),
    ("ResourceCompile", Tool.resourceCompiler), ("Midl", Tool.interfaceCompiler),
    ("PreBuildEvent", Tool.preBuildEvent), ("PreLinkEvent", Tool.preLinkEvent),
    ("PostBuildEvent", Tool.postBuildEvent), ("CustomBuildStep", Tool.customBuild),
    ("Manifest", Tool.manifest)].lookup name).getD name

def settingName (tool name : String) : String :=
  if name = "Command" &&
      [Tool.preBuildEvent, Tool.preLinkEvent, Tool.postBuildEvent].contains tool then
    "CommandLine"
  else name

def setSetting (s : Evaluation) (tool : String) (setting : Element) : Evaluation :=
  let current := (s.configuration.tools.find? tool).getD ∅
  let value := s.macros.expand (expandMetadata (trimmedText setting) current)
  { s with
    configuration :=
      { s.configuration with
        tools := s.configuration.tools.setSetting tool (settingName tool setting.name) value } }

def forEach (fs : FileSystem) (directory : String)
    (f : Evaluation → Element → Except Failure Evaluation) (s : Evaluation) (l : List Element) :
    Except Failure Evaluation :=
  l.foldlM
    (fun s e => do
      if ← s.holds fs directory e then f s e else return s) s

def applyTool (fs : FileSystem) (directory : String) (s : Evaluation) (tool : Element) :
    Except Failure Evaluation :=
  forEach fs directory (fun s setting => .ok (s.setSetting (toolOf tool.name) setting)) s
    tool.children

def apply (fs : FileSystem) (directory : String) (s : Evaluation) (e : Element) :
    Except Failure Evaluation :=
  if e.name = "PropertyGroup" then
    forEach fs directory (fun s property => .ok (s.setProperty property.name property.text)) s
      e.children
  else if e.name = "ItemDefinitionGroup" then
    forEach fs directory (applyTool fs directory) s e.children
  else .ok s

def addSheet (s : Evaluation) (path : NormalPath) : Evaluation :=
  { s with
    configuration :=
      { s.configuration with propertySheets := s.configuration.propertySheets ++ [path] } }

end Evaluation

/-- An element still to be evaluated, with the directory of the file that it comes from. -/
structure Pending where
  directory : String
  element : Element

def Pending.ofElements (directory : String) (l : List Element) : List Pending :=
  l.map fun element => ⟨directory, element⟩

def Pending.weight (l : List Pending) : Nat := Element.size.sizes (l.map Pending.element)

structure Progress where
  evaluation : Evaluation
  /-- The paths of all imports so far, read or not. -/
  visited : List NormalPath := []

namespace Progress

def importPath (fs : FileSystem) (s : Progress) (path : NormalPath) : List Pending × Progress :=
  if path ∈ s.visited then ([], s)
  else
    match fs.documentAt? path with
    | none => ([], { s with visited := s.visited ++ [path] })
    | some root =>
      (Pending.ofElements path.parent.toString root.children,
        { evaluation := s.evaluation.addSheet path, visited := s.visited ++ [path] })

def enter (fs : FileSystem) (s : Progress) (p : Pending) :
    Except Failure (List Pending × Progress) :=
  if p.element.name = "Import" then
    match p.element.attribute? "Project" with
    | none => .ok ([], s)
    | some project =>
      .ok (s.importPath fs (.resolve p.directory (s.evaluation.macros.expand project)))
  else if p.element.name = "ImportGroup" then
    .ok (Pending.ofElements p.directory (p.element.childrenNamed "Import"), s)
  else
    (s.evaluation.apply fs p.directory p.element).map fun evaluation => ([], { s with evaluation })

def step (fs : FileSystem) (s : Progress) (p : Pending) :
    Except Failure (List Pending × Progress) :=
  match s.evaluation.holds fs p.directory p.element with
  | .error e => .error e
  | .ok false => .ok ([], s)
  | .ok true => s.enter fs p

theorem weight_cons (p : Pending) (rest : List Pending) :
    Pending.weight (p :: rest) = p.element.size + Pending.weight rest := by
  simp [Pending.weight, Element.size.sizes]

theorem weight_append (l rest : List Pending) :
    Pending.weight (l ++ rest) = Pending.weight l + Pending.weight rest := by
  simp [Pending.weight, Element.sizes_append]

theorem weight_ofElements (directory : String) (l : List Element) :
    Pending.weight (Pending.ofElements directory l) = Element.size.sizes l := by
  simp [Pending.weight, Pending.ofElements, Function.comp_def]

theorem one_le_size (e : Element) : 1 ≤ e.size := by rw [Element.size_eq]; omega

/-- Every step either reads a path that was unread or leaves fewer elements. -/
theorem step_lt {fs : FileSystem} {s s' : Progress} {p : Pending} {l : List Pending}
    (h : s.step fs p = .ok (l, s')) (rest : List Pending) :
    Prod.Lex (· < ·) (· < ·) (fs.unread s'.visited, Pending.weight (l ++ rest))
      (fs.unread s.visited, Pending.weight (p :: rest)) := by
  have hp := one_le_size p.element
  have skip : Prod.Lex (· < ·) (· < ·)
      (fs.unread s.visited, Pending.weight ([] ++ rest))
      (fs.unread s.visited, Pending.weight (p :: rest)) := by
    refine Prod.Lex.right _ ?_
    rw [weight_cons, List.nil_append]
    omega
  unfold step at h
  split at h
  · cases h
  · cases h; exact skip
  · unfold enter at h
    split at h
    · split at h
      · cases h; exact skip
      · generalize NormalPath.resolve p.directory _ = path at h
        unfold importPath at h
        split at h
        · cases h; exact skip
        · next hv =>
          split at h
          · cases h
            refine FileSystem.follow_lt path ?_
            rw [weight_cons, List.nil_append]
            omega
          · next root hd =>
            cases h
            exact Prod.Lex.left _ _ (FileSystem.unread_concat_lt_of_documentAt? hv hd)
    · split at h
      · cases h
        refine Prod.Lex.right _ ?_
        rw [weight_cons, weight_append, weight_ofElements, Element.size_eq]
        have := Element.sizes_filter_le (fun e => decide (e.name = "Import")) p.element.children
        simp only [Element.childrenNamed]
        omega
      · cases ha : s.evaluation.apply fs p.directory p.element with
        | error e => rw [ha] at h; cases h
        | ok evaluation => rw [ha] at h; cases h; exact skip

end Progress

def evaluate (fs : FileSystem) (pending : List Pending) (s : Progress) : Except Failure Progress :=
  match pending with
  | [] => .ok s
  | p :: rest =>
    match _h : s.step fs p with
    | .error e => .error e
    | .ok (l, s') => evaluate fs (l ++ rest) s'
termination_by (fs.unread s.visited, Pending.weight pending)
decreasing_by exact Progress.step_lt _h rest

end StudioMake.MSBuild
