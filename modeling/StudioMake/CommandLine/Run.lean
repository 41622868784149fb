import StudioMake.CommandLine.Arguments
import StudioMake.Invocation

/-!
# Command lines

From the words of a command line to what the run leaves. Definitions and the environment script
become seeds; the fields asked for become a report, for which a configuration must be chosen unless
only their names are asked for.
-/

set_option autoImplicit false

namespace StudioMake.CommandLine

/-- Why accepted arguments do not make an invocation. -/
inductive InvocationError where
  | script (cause : Failure)
  | noConfiguration
deriving DecidableEq

def InvocationError.message : InvocationError → String
  | .script cause => cause.message
  | .noConfiguration => "no configuration given; use --config <NAME> or -a"

inductive Error where
  | usage (cause : UsageError)
  | invocation (cause : InvocationError)
  | failure (cause : Failure)
deriving DecidableEq

namespace Arguments

def seeds (fs : FileSystem) (environment : EnvironmentScript.Variables) (a : Arguments) :
    Except InvocationError Seeds :=
  let s := ({} : Seeds).defineAll a.definitions
  match a.script with
  | none => .ok s
  | some path => (s.addScriptFile fs environment path).mapError .script

def target (a : Arguments) : Except InvocationError Report.Target :=
  if a.all then .ok .all
  else
    match a.configuration with
    | some name => .ok (.configuration name)
    | none =>
      if a.labels.all (·.1 = .configurations) then .ok .all else .error .noConfiguration

def request (a : Arguments) : Except InvocationError (Option Report.Request) :=
  if a.labels.isEmpty then .ok none
  else
    a.target.map fun target =>
      some (a.labels.foldl (fun r entry => r.add entry.1 entry.2) { target })

def invocation (fs : FileSystem) (environment : EnvironmentScript.Variables) (a : Arguments) :
    Except InvocationError Invocation := do
  let seeds ← a.seeds fs environment
  return { input := a.input, output := a.output, request := ← a.request, seeds }

end Arguments

def run (fs : FileSystem) (environment : EnvironmentScript.Variables) (words : List String) :
    Except Error Outcome := do
  let a ← (Arguments.ofWords words).mapError .usage
  let i ← (a.invocation fs environment).mapError .invocation
  (i.outcome fs).mapError .failure

end StudioMake.CommandLine
