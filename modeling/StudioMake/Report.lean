import StudioMake.Failure
import StudioMake.Project.Basic
import StudioMake.Project.Flags
import StudioMake.Text.Search

/-!
# Reports

Lines that show what a configuration is built with, for use in other scripts. A request holds the
fields to show in their order, each once, with a label that starts its lines.
-/

set_option autoImplicit false

namespace StudioMake.Report

/-- What can be shown; the order here is the order of the lines. -/
inductive Field where
  | configurations
  | forcedIncludes
  | includeDirectories
  | libraries
  | libraryDirectories
  | defines
  | sources
deriving DecidableEq

namespace Field

def all : List Field :=
  [.configurations, .forcedIncludes, .includeDirectories, .libraries, .libraryDirectories, .defines,
   .sources]

def letter : Field → Char
  | .configurations => 'c'
  | .forcedIncludes => 'i'
  | .includeDirectories => 'I'
  | .libraries => 'l'
  | .libraryDirectories => 'L'
  | .defines => 'D'
  | .sources => 's'

def ofLetter? (c : Char) : Option Field := all.find? fun field => field.letter == c

def rank (field : Field) : Nat := field.ctorIdx

end Field

inductive Target where
  | all
  | configuration (name : String)
deriving DecidableEq

structure Request where
  target : Target
  fields : List (Field × String) := []
deriving DecidableEq

namespace Request

def insertField (field : Field) (label : String) : List (Field × String) → List (Field × String)
  | [] => [(field, label)]
  | (f, l) :: rest =>
    if f = field then (field, label) :: rest
    else if field.rank < f.rank then (field, label) :: (f, l) :: rest
    else (f, l) :: insertField field label rest

def add (r : Request) (field : Field) (label : String) : Request :=
  { r with fields := insertField field label r.fields }

def isEmpty (r : Request) : Bool := r.fields.isEmpty

def needsConfiguration (r : Request) : Bool := r.fields.any fun entry => entry.1 ≠ .configurations

end Request

def expandLabel (p : Project) (c : Configuration) (label : String) : String :=
  [("$(Name)", p.name), ("$(Platform)", c.platform), ("$(Configuration)", c.configurationName),
   ("$(IntDir)", c.intermediateDirectory), ("$(OutDir)", c.outputDirectory)].foldl
    (fun text entry => Text.replaceAll entry.1 entry.2 text) label

/-- The paths of sources, each but the last on a line that goes on. -/
def sourceLines (sources : List File) : String := "\\\n".intercalate (sources.map File.unixPath)

def fieldText (p : Project) (c : Configuration) : Field → String
  | .configurations => c.name
  | .forcedIncludes => c.forcedIncludeFlags
  | .includeDirectories => c.includeFlags
  | .libraries => c.libraryFlags
  | .libraryDirectories => c.libraryDirectoryFlags
  | .defines => c.defineFlags
  | .sources => sourceLines (p.sourcesOf c)

def lines (p : Project) (fields : List (Field × String)) (c : Configuration) : String :=
  String.join (fields.map fun entry =>
    expandLabel p c entry.2 ++ fieldText p c entry.1 ++ "\n")

def names (p : Project) (r : Request) : String :=
  String.join (p.configurations.map
    (lines p (r.fields.filter fun entry => entry.1 = .configurations)))

def details (p : Project) (r : Request) (c : Configuration) : String :=
  lines p (r.fields.filter fun entry => entry.1 ≠ .configurations) c

/-- The text that a request asks for. The names of the configurations come first, of whichever
configuration the rest is shown. -/
def text (p : Project) (r : Request) : Except Failure String :=
  if r.needsConfiguration then
    match r.target with
    | .all => .ok (names p r ++ String.join (p.configurations.map (details p r)))
    | .configuration name =>
      match p.configuration? name with
      | some c => .ok (names p r ++ details p r c)
      | none => .error (.unknownConfiguration name)
  else .ok (names p r)

end StudioMake.Report
