import StudioMake.CommandLine.Run

/-!
# The command

Takes the files that a run may look at from the disk, runs on them, and puts back what the run
leaves. Only the input, the script and files that may hold a document are read.
-/

set_option autoImplicit false

namespace StudioMake.Command

def usage : String :=
  "Convert a Visual Studio project file to a GNU Makefile.\n\n" ++
  "Usage: studiomake [OPTIONS] <INPUT> [OUTPUT_DIR]\n\n" ++
  "  -i[=LABEL]         Print forced include files\n" ++
  "  -I[=LABEL]         Print include directories\n" ++
  "  -L[=LABEL]         Print library directories used by the linker\n" ++
  "  -l[=LABEL]         Print libraries passed to the linker\n" ++
  "  -D[=LABEL]         Print preprocessor definitions\n" ++
  "  -s[=LABEL]         Print C and C++ sources\n" ++
  "  -c[=LABEL]         Print configuration names\n" ++
  "  -a                 Print properties of every configuration\n" ++
  "  --config <NAME>    Configuration to print properties of\n" ++
  "  --define <NAME=VALUE>  Set a macro\n" ++
  "  --vsvars <FILE>    Set macros from a Visual Studio environment script\n" ++
  "  --log-level <LEVEL>  Log level\n" ++
  "  -h, --help         Print help\n" ++
  "  -V, --version      Print version"

def version : String := "studiomake 0.1.0"

def usageMessage : CommandLine.UsageError → String
  | .missingInput => "the project file is missing"
  | .unknownArgument => "unexpected argument"
  | .conflict => "an argument is given twice or excludes another one"
  | .invalidValue => "a value is missing"
  | .malformedDefinition => "a definition must be of the form NAME=VALUE"
  | .unexpectedValue => "a value is given to an option that takes none"
  | .helpRequested => usage
  | .versionRequested => version

/-- A document starts with a mark of byte order, a blank or a bracket. -/
def mayHoldDocument (content : ByteArray) : Bool :=
  content[0]?.any fun byte =>
    byte == 0xEF || byte == 0x3C || byte == 0x20 || byte == 0x09 || byte == 0x0A || byte == 0x0D

def addPath (wanted : List String) : Nat → FileSystem → String → IO FileSystem
  | 0, fs, _ => return fs
  | depth + 1, fs, name => do
    let path := (← IO.currentDir) / name
    if ← path.isDir then
      let mut fs := fs.addDirectory (Path.segments name)
      for entry in ← path.readDir do
        fs ← addPath wanted depth fs entry.path.toString
      return fs
    else
      let content ← IO.FS.readBinFile path
      let isRead := wanted.contains name || mayHoldDocument content
      return fs.addFile (Path.segments name) (if isRead then content.toList else [])

def tryAddPath (wanted : List String) (depth : Nat) (fs : FileSystem) (path : String) :
    IO FileSystem := do
  try addPath wanted depth fs path
  catch _ => return fs

def realPath? (path : String) : IO (Option String) := do
  try return some (← IO.FS.realPath path).toString
  catch _ => return none

/-- The files on the disk that a run may look at: those below the working directory and around the
input, the script and the output. -/
def files (a : CommandLine.Arguments) : IO FileSystem := do
  let workingPath := (← IO.currentDir).toString
  let wanted := (← (a.input :: a.script.toList).mapM realPath?).reduceOption
  let around := (wanted.head?.bind Path.parent?).bind Path.parent?
  let place := Path.segments workingPath
  let fs := ({ workingDirectory := place } : FileSystem).addDirectory place
  let fs ← (← realPath? a.output).toList.foldlM (tryAddPath wanted 1) fs
  (workingPath :: around.toList ++ wanted).foldlM (tryAddPath wanted 12) fs

def environment : IO EnvironmentScript.Variables := do
  try
    let content ← IO.FS.readBinFile "/proc/self/environ"
    let items := Text.splitAll (· == '\x00') (Text.Utf8.decode content.toList)
    return .ofList (items.filterMap (Text.splitOnce? '='))
  catch _ => return ∅

def fail (cause : CommandLine.Error) : IO UInt32 := do
  match cause with
  | .usage .helpRequested => IO.println usage; return 0
  | .usage .versionRequested => IO.println version; return 0
  | .usage cause => IO.eprintln (usageMessage cause); return 2
  | .invocation cause => IO.eprintln cause.message; return 1
  | .failure cause => IO.eprintln cause.message; return 1

def succeed (a : CommandLine.Arguments) (outcome : Outcome) : IO UInt32 := do
  if a.labels.isEmpty then
    let path := Makefile.pathIn a.output
    if let .ok content := outcome.files.read path then
      IO.FS.writeBinFile path content.toByteArray
  IO.print outcome.text
  return 0

end StudioMake.Command

open StudioMake in
def main (words : List String) : IO UInt32 := do
  match CommandLine.Arguments.ofWords words with
  | .error cause => Command.fail (.usage cause)
  | .ok a =>
    match CommandLine.run (← Command.files a) (← Command.environment) words with
    | .error cause => Command.fail cause
    | .ok outcome => Command.succeed a outcome
