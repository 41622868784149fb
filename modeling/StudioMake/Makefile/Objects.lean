import StudioMake.Makefile.Statement
import StudioMake.Project.Basic
import StudioMake.Text.Sorted

/-!
# Objects

How the sources of a configuration become objects. All objects lie in one directory and are named
after the source without its directory and extension.
-/

set_option autoImplicit false

namespace StudioMake.Makefile

def directoryName (directory : String) : String :=
  match Text.dropEndWhile (· == '/') (Path.toUnix directory).toList with
  | [] => "."
  | name => String.ofList name

def objectExtensions : List String := ["c", "cc", "cpp", "cxx"]

def sourcesVariable (rule : String) : String := rule ++ "_SRCS"

def objectsVariable (rule : String) : String := rule ++ "_OBJS"

def reference (name : String) : String := "$(" ++ name ++ ")"

def objectNames (rule directory extension : String) : String :=
  "$(patsubst %." ++ extension ++ "," ++ directory ++ "/%.o,$(notdir $(filter %." ++ extension ++
    "," ++ reference (sourcesVariable rule) ++ ")))"

def assignObjects (rule directory : String) : List Statement :=
  .assignWords (objectsVariable rule) [] ::
    objectExtensions.map fun extension =>
      .assign (objectsVariable rule) .append (objectNames rule directory extension)

def compileC : String := "@$(CC) $(CPPFLAGS) $(CFLAGS) -c $< -o $(INTDIR)/$(notdir $@)"

def compileAsC : String := "@$(CC) -x c $(CPPFLAGS) $(CFLAGS) -c $< -o $(INTDIR)/$(notdir $@)"

def compileCpp : String := "@$(CXX) $(CPPFLAGS) $(CXXFLAGS) -c $< -o $(INTDIR)/$(notdir $@)"

/-- A file whose language its extension does not tell. -/
def needsOwnRule (f : File) : Bool := f.compileAsC && !f.isC

def directoryPart (path : String) : String :=
  ((Text.splitLast? '/' path).map Prod.fst).getD "."

/-- The directory and extension by which a file finds its rule. -/
def pattern? (f : File) : Option (String × String) :=
  f.extension?.map fun extension => (directoryPart f.unixPath, extension)

/-- The directories and extensions of the sources that share rules, each pair once. -/
def patterns (sources : List File) : List (String × String) :=
  Text.sortedDistinctPairs ((sources.filter fun f => !needsOwnRule f).filterMap pattern?)

def patternRule (objects : String) (pattern : String × String) : Statement :=
  .object (objects ++ "/%.o") (pattern.1 ++ "/%." ++ pattern.2)
    ["@echo $<", if pattern.2 = "c" then compileC else compileCpp]

def fileRule (objects : String) (f : File) : Statement :=
  .object (objects ++ "/" ++ f.stem ++ ".o") f.unixPath ["@echo $<", compileAsC]

def objectRules (objects : String) (sources : List File) : List Statement :=
  (patterns sources).map (patternRule objects) ++
    (sources.filter needsOwnRule).map (fileRule objects)

example : directoryName ".\\out\\" = "out" ∧ directoryName "/" = "." := by decide +kernel

end StudioMake.Makefile
