import StudioMake.Text.Split
import StudioMake.Text.Search

/-!
# Paths as text

Paths as they are written: in a project, with either separator, and in the file system, with `/`.
Nothing here looks at a file.
-/

set_option autoImplicit false

namespace StudioMake.Path

def slashes (path : String) : String :=
  String.ofList (path.toList.map fun c => if c = '\\' then '/' else c)

/-- The path with `/` as the separator and without a leading `./`. -/
def toUnix (path : String) : String :=
  (Text.dropLead? "./" (slashes path)).getD (slashes path)

def isSeparator (c : Char) : Bool := c == '\\' || c == '/'

def displayName (path : String) : String :=
  String.ofList (path.toList.reverse.takeWhile fun c => !isSeparator c).reverse

/-- A directory with a separator at its end; the empty text stays empty. -/
def withTrailingSeparator (directory : String) : String :=
  match directory.toList.getLast? with
  | none => ""
  | some c => if isSeparator c then directory else directory ++ "/"

def isAbsolute (path : String) : Bool := path.toList.head? == some '/'

def endsInSlash (path : String) : Bool := path.toList.getLast? == some '/'

def segments (path : String) : List String :=
  (Text.splitAll (· == '/') path).filter fun name => name ≠ "" && name ≠ "."

def join (base path : String) : String :=
  if isAbsolute path then path
  else if base = "" || endsInSlash base then base ++ path
  else base ++ "/" ++ path

/-- The path from the root. Repeated slashes and `.` are dropped; `..`, a slash at the end and
exactly two slashes at the start are kept; the empty path stays empty. -/
def absolute (workingDirectory path : String) : String :=
  if path = "" then ""
  else
    let start :=
      match path.toList with
      | '/' :: '/' :: '/' :: _ => "/"
      | '/' :: '/' :: _ => "//"
      | '/' :: _ => "/"
      | _ => workingDirectory
    let whole := (segments path).foldl join start
    if endsInSlash path && !endsInSlash whole then whole ++ "/" else whole

/-- The path of the directory that holds `path`; the root and the empty path have none. -/
def parent? (path : String) : Option String :=
  match Text.dropEndWhile (· == '/') path.toList with
  | [] => none
  | body =>
    match Text.cutLast? '/' body with
    | none => some ""
    | some (directory, _) =>
      match Text.dropEndWhile (· == '/') directory with
      | [] => some "/"
      | kept => some (String.ofList kept)

def fileName? (path : String) : Option String :=
  (segments path).getLast?.filter (· ≠ "..")

def fileStem? (path : String) : Option String :=
  (fileName? path).map fun name =>
    match Text.splitExtension? name with
    | some (stem, _) => stem
    | none => name

def extension? (path : String) : Option String :=
  ((fileName? path).bind Text.splitExtension?).map Prod.snd

example : absolute "/tmp" "./a//b/" = "/tmp/a/b/" ∧ parent? "/tmp/a/b/" = some "/tmp/a" := by
  decide +kernel

end StudioMake.Path
