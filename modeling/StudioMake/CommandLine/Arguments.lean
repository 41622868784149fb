import StudioMake.Report
import StudioMake.Text.Split

/-!
# Arguments

The words of a command line are read from the left. A word that belongs to an option or a place is
kept pending until the next one is understood, so that an unknown word is reported before a fault
in the word that it follows.
-/

set_option autoImplicit false

namespace StudioMake.CommandLine

inductive UsageError where
  | missingInput
  | unknownArgument
  | conflict
  | invalidValue
  | malformedDefinition
  | unexpectedValue
  | helpRequested
  | versionRequested
deriving DecidableEq

structure Arguments where
  input : String
  output : String := "."
  labels : List (Report.Field × String) := []
  all : Bool := false
  configuration : Option String := none
  definitions : List (String × String) := []
  script : Option String := none
  logLevel : String := "warn"
deriving DecidableEq

inductive Slot where
  | input
  | output
  | configuration
  | definition
  | script
  | logLevel
deriving DecidableEq

def Slot.ofOption? : String → Option Slot
  | "config" => some .configuration
  | "define" => some .definition
  | "vsvars" => some .script
  | "log-level" => some .logLevel
  | _ => none

/-- What has been read of a command line. -/
structure Progress where
  input : Option String := none
  output : Option String := none
  labels : List (Report.Field × String) := []
  all : Bool := false
  configuration : Option String := none
  definitions : List (String × String) := []
  script : Option String := none
  logLevel : Option String := none
  pending : Option (Slot × Option String) := none
  places : Nat := 0
  /-- Every further word belongs to no option. -/
  trailing : Bool := false
deriving DecidableEq

namespace Progress

def fill (old : Option String) (value : String) : Except UsageError (Option String) :=
  match old with
  | some _ => .error .conflict
  | none => .ok (some value)

def fillPath (old : Option String) (value : String) : Except UsageError (Option String) := do
  let filled ← fill old value
  if value = "" then .error .invalidValue else .ok filled

def definition? (word : String) : Option (String × String) :=
  ((Text.splitOnce? '=' word).map fun (name, value) => (Text.trim name, value)).filter (·.1 ≠ "")

def store (r : Progress) (value : String) : Slot → Except UsageError Progress
  | .input => do return { r with input := ← fillPath r.input value }
  | .output => do return { r with output := ← fillPath r.output value }
  | .configuration => do return { r with configuration := ← fill r.configuration value }
  | .script => do return { r with script := ← fillPath r.script value }
  | .logLevel => do return { r with logLevel := ← fill r.logLevel value }
  | .definition =>
    match definition? value with
    | some d => .ok { r with definitions := r.definitions ++ [d] }
    | none => .error .malformedDefinition

/-- Fills the pending slot. -/
def settle (r : Progress) : Except UsageError Progress :=
  match r.pending with
  | none => .ok r
  | some (_, none) => .error .invalidValue
  | some (slot, some value) => { r with pending := none }.store value slot

def addLabel (r : Progress) (field : Report.Field) (label : String) :
    Except UsageError Progress := do
  let r ← r.settle
  if r.labels.any (·.1 = field) then .error .conflict
  else .ok { r with labels := r.labels ++ [(field, label)] }

def chooseAll (r : Progress) : Except UsageError Progress := do
  let r ← r.settle
  if r.all then .error .conflict else .ok { r with all := true }

def leave (r : Progress) (request : UsageError) : Except UsageError Progress := do
  let _ ← r.settle
  .error request

/-- Reads letters after one dash. A field takes its label after `=` only. -/
def readLetters (r : Progress) : List Char → Except UsageError Progress
  | [] => .ok r
  | c :: rest =>
    if c = 'a' then do (← r.chooseAll).readLetters rest
    else if c = 'h' then r.leave .helpRequested
    else if c = 'V' then r.leave .versionRequested
    else
      match Report.Field.ofLetter? c, rest with
      | none, _ => .error .unknownArgument
      | some field, '=' :: label => r.addLabel field (String.ofList label)
      | some field, rest => do (← r.addLabel field "").readLetters rest

def readName (r : Progress) (name : String) (value? : Option String) :
    Except UsageError Progress :=
  match Slot.ofOption? name, value? with
  | some slot, some value => do (← r.settle).store value slot
  | some slot, none => do return { ← r.settle with pending := some (slot, none) }
  | none, _ =>
    if name = "help" || name = "version" then
      if value?.isSome then .error .unexpectedValue
      else r.leave (if name = "help" then .helpRequested else .versionRequested)
    else .error .unknownArgument

/-- Reads a word that belongs to no option: the input, and then the output. -/
def readPlace (r : Progress) (word : String) : Except UsageError Progress :=
  match [Slot.input, Slot.output][r.places]? with
  | none => .error .unknownArgument
  | some slot => do
    return { ← r.settle with pending := some (slot, some word), places := r.places + 1 }

def readWord (r : Progress) (word : String) : Except UsageError Progress :=
  match r.pending with
  | some (slot, none) => .ok { r with pending := some (slot, some word) }
  | _ => r.readPlace word

def read (r : Progress) (word : String) : Except UsageError Progress :=
  if r.trailing then r.readPlace word
  else
    match word.toList with
    | ['-', '-'] => .ok { r with trailing := true }
    | '-' :: '-' :: option =>
      match Text.cut? '=' option with
      | some (name, value) => r.readName (String.ofList name) (some (String.ofList value))
      | none => r.readName (String.ofList option) none
    | '-' :: c :: letters => r.readLetters (c :: letters)
    | _ => r.readWord word

def finish (r : Progress) : Except UsageError Arguments := do
  let r ← r.settle
  if r.all && r.configuration.isSome then .error .conflict
  else
    match r.input with
    | none => .error .missingInput
    | some input =>
      .ok {
        input
        output := r.output.getD "."
        labels := r.labels
        all := r.all
        configuration := r.configuration
        definitions := r.definitions
        script := r.script
        logLevel := r.logLevel.getD "warn" }

end Progress

def Arguments.ofWords (words : List String) : Except UsageError Arguments := do
  (← words.foldlM Progress.read {}).finish

end StudioMake.CommandLine
