import StudioMake.EnvironmentScript
import StudioMake.Failure
import StudioMake.MacroTable.Vocabulary

/-!
# Seeds

Values given to macros before a project is read. Variables set the macros named like them up to
letter case; definitions come after them and set, or add, exactly the macro they name.
-/

set_option autoImplicit false

namespace StudioMake

structure Seeds where
  definitions : List (String × String) := []
  assigned : EnvironmentScript.Variables := ∅
deriving DecidableEq

namespace Seeds

def define (s : Seeds) (name value : String) : Seeds :=
  { s with definitions := s.definitions ++ [(name, value)] }

def defineAll (s : Seeds) (definitions : List (String × String)) : Seeds :=
  { s with definitions := s.definitions ++ definitions }

def addScript (environment : EnvironmentScript.Variables) (s : Seeds) (script : String) : Seeds :=
  { s with
    assigned := s.assigned.insertAll (EnvironmentScript.read environment script).toList }

def addScriptFile (fs : FileSystem) (environment : EnvironmentScript.Variables) (s : Seeds)
    (path : String) : Except Failure Seeds :=
  match fs.readText path with
  | .ok script => .ok (s.addScript environment script)
  | .error cause => .error (.unreadable path cause)

/-- Adds the variables of the process, but for those whose names are taken up to letter case. -/
def addEnvironment (environment : EnvironmentScript.Variables) (s : Seeds) : Seeds :=
  { s with
    assigned := environment.toList.foldl
      (fun assigned entry =>
        if (assigned.findIgnoringCase? entry.1).isSome then assigned
        else assigned.insert entry.1 entry.2) s.assigned }

def macros (s : Seeds) (format : Format) : MacroTable :=
  let fresh := if format = .vcxproj then MacroTable.msbuild else MacroTable.vcproj
  s.definitions.foldl (fun m entry => m.set entry.1 entry.2) (fresh.seed s.assigned.toList)

end Seeds

end StudioMake
