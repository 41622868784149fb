import StudioMake.Project.ForcedInclude
import StudioMake.VisualStudio.Listing

/-!
# Files and configurations

A file belongs to every configuration that its records do not exclude. The names that it excludes
and the configurations that still build it are kept side by side while its records are read.
-/

set_option autoImplicit false

namespace StudioMake.VisualStudio

open Xml

/-- The exclusion of a file is on unless it says that it is off. -/
def marksExclusion (value : String) : Bool :=
  !(Text.sameIgnoringCase (Text.trim value) "false" || Text.trim value = "0")

/-- Every use of the precompiled header creates it but for none, `0`, and reading it, `2`. -/
def createsPrecompiledHeader (value : String) : Bool :=
  !(Text.trim value = "0" || Text.trim value = "2")

/-- A file and, for each configuration, whether it is built by it. -/
structure LinkedFile where
  file : File
  built : List Bool

namespace LinkedFile

def exclude (configurations : List Configuration) (l : LinkedFile) (name : String) : LinkedFile :=
  { file := l.file.excludeFrom name
    built := List.zipWith (fun built c => built && c.name ≠ name) l.built configurations }

def addTool (l : LinkedFile) (tool : Element) : LinkedFile :=
  { l with file :=
    { l.file with
      precompiledHeader := l.file.precompiledHeader ||
        (tool.attribute? "UsePrecompiledHeader").any createsPrecompiledHeader
      compileAsC :=
        match tool.attribute? "CompileAs" with
        | none => l.file.compileAsC
        | some value => Text.trim value = "1" } }

def addRecord (configurations : List Configuration) (l : LinkedFile) (record : Element) :
    LinkedFile :=
  let l :=
    if (record.attribute? "ExcludedFromBuild").any marksExclusion then
      l.exclude configurations (record.attributeD "Name")
    else l
  (record.childrenNamed "Tool").foldl addTool l

end LinkedFile

def startFile (directory : String) (configurations : List Configuration)
    (filter : Option String) (e : Element) : LinkedFile :=
  let relativePath := e.attributeD "RelativePath"
  { file :=
      { relativePath
        absolutePath := .resolve directory relativePath
        name := Path.displayName relativePath
        filter
        forcedInclude := isForcedInclude configurations relativePath }
    built := configurations.map fun _ => true }

def readFile (directory : String) (configurations : List Configuration)
    (filter : Option String) (e : Element) : LinkedFile :=
  (e.childrenNamed "FileConfiguration").foldl (LinkedFile.addRecord configurations)
    (startFile directory configurations filter e)

def readFiles (directory : String) (configurations : List Configuration)
    (listed : List (Option String × Element)) : List LinkedFile :=
  listed.map fun (filter, e) => readFile directory configurations filter e

def attachFile (index : Nat) (built : List Bool) (configurations : List Configuration) :
    List Configuration :=
  List.zipWith (fun built c => if built then { c with files := c.files ++ [index] } else c)
    built configurations

def attachFiles (n : Nat) : List LinkedFile → List Configuration → List Configuration
  | [], configurations => configurations
  | l :: rest, configurations => attachFiles (n + 1) rest (attachFile n l.built configurations)

end StudioMake.VisualStudio
