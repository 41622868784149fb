import StudioMake.MacroTable.Basic
import StudioMake.Project.Basic

/-!
# Where a project lies

The path of a project as it was given and from the root. The paths inside the project are resolved
against its directory, whatever the working directory is.
-/

set_option autoImplicit false

namespace StudioMake

structure Location where
  path : String
  absolutePath : String
  directory : String
deriving DecidableEq

namespace Location

def ofPath (workingDirectory path : String) : Location :=
  let absolutePath := Path.absolute workingDirectory path
  { path, absolutePath, directory := (Path.parent? absolutePath).getD "" }

def fileName (l : Location) : String := (Path.fileName? l.absolutePath).getD ""

def fileStem (l : Location) : String := (Path.fileStem? l.absolutePath).getD ""

def extension (l : Location) : String :=
  ((Path.extension? l.absolutePath).map ("." ++ ·)).getD ""

def project (l : Location) (format : Format) : Project :=
  { format, path := l.path, absolutePath := l.absolutePath, directory := l.directory }

def setMacros (l : Location) (name rootNamespace : String) (m : MacroTable) : MacroTable :=
  m.setAll ["ProjectName", "InputName", "TargetName", "SafeInputName"] name
    |>.setAll ["RootNameSpace", "SafeRootNamespace"] rootNamespace
    |>.setAll ["ProjectDir", "InputDir"] (Path.withTrailingSeparator l.directory)
    |>.setAll ["ProjectPath", "InputPath"] l.absolutePath
    |>.setAll ["ProjectFileName", "InputFileName"] l.fileName
    |>.setAll ["ProjectExt", "InputExt"] l.extension

end Location

end StudioMake
