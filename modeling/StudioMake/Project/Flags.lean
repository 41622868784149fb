import StudioMake.Project.Configuration

/-!
# Flags

What the settings of a configuration tell the compiler and the linker, as lists and as the flags of
a command.
-/

set_option autoImplicit false

namespace StudioMake

def flags (flag : String) (items : List String) : String :=
  " ".intercalate (items.map (flag ++ ·))

/-- Two lists of flags, either of which may be empty, as one. -/
def joinFlags (a b : String) : String :=
  if a = "" then b else if b = "" then a else a ++ " " ++ b

namespace Configuration

def includeDirectories (c : Configuration) : List String :=
  (c.propertyList Tool.compiler "AdditionalIncludeDirectories").map Path.toUnix

def forcedIncludes (c : Configuration) : List String :=
  (c.propertyList Tool.compiler "ForcedIncludeFiles").map Path.toUnix

def defines (c : Configuration) : List String :=
  c.propertyList Tool.compiler "PreprocessorDefinitions"

def linkTool (c : Configuration) : String :=
  if c.type = .staticLibrary then Tool.librarian else Tool.linker

def libraryDirectories (c : Configuration) : List String :=
  (c.propertyList c.linkTool "AdditionalLibraryDirectories").map Path.toUnix

def dropLibExtension (name : String) : String :=
  let stem := name.toList.take (name.toList.length - 4)
  let extension := name.toList.drop (name.toList.length - 4)
  if Text.sameIgnoringCase (String.ofList extension) ".lib" then String.ofList stem else name

/-- The name that a linker is given for an entry, which may be quoted. -/
def libraryName (entry : String) : String :=
  dropLibExtension (Path.toUnix (Text.trimChar '"' entry))

def libraries (c : Configuration) : List String :=
  ((c.propertyList c.linkTool "AdditionalDependencies").map libraryName).filter (· ≠ "")

def includeFlags (c : Configuration) : String := flags "-I" c.includeDirectories

def forcedIncludeFlags (c : Configuration) : String := flags "-include " c.forcedIncludes

def defineFlags (c : Configuration) : String := flags "-D" c.defines

def libraryDirectoryFlags (c : Configuration) : String := flags "-L" c.libraryDirectories

def libraryFlags (c : Configuration) : String := flags "-l" c.libraries

example : libraryName "\"lib\\Zlib.LIB\"" = "lib/Zlib" := by decide +kernel

end Configuration

end StudioMake
