import StudioMake.FileSystem
import StudioMake.Format

/-!
# Failures

Why a project cannot be loaded, printed or turned into a makefile.
-/

set_option autoImplicit false

namespace StudioMake

inductive Failure where
  | notFound (path : String)
  | unreadable (path : String) (cause : OSError)
  /-- The file holds nothing but blanks. -/
  | empty (path : String)
  | malformedXml
  | unsupportedFormat (path : String) (format : Format)
  | noGlobalProperties (path : String)
  | noConfigurations (path : String)
  | malformedCondition (condition : String)
  | notADirectory (path : String)
  | unknownConfiguration (name : String)
  /-- The makefile could not be written. -/
  | unwritable (cause : OSError)
deriving DecidableEq

def Failure.message : Failure → String
  | .notFound path => path ++ ": does not exist"
  | .unreadable path cause => path ++ ": empty or unreadable: " ++ cause.message
  | .empty path => path ++ ": empty or unreadable"
  | .malformedXml => "XML Error: the document is not well formed"
  | .unsupportedFormat path format => path ++ ": " ++ format.name ++ " files are not supported"
  | .noGlobalProperties path => path ++ " does not contain any global properties"
  | .noConfigurations path => path ++ " does not contain any configurations"
  | .malformedCondition condition =>
    "Failed to parse condition '" ++ condition ++ "': it does not follow the grammar"
  | .notADirectory path => path ++ " is not a directory"
  | .unknownConfiguration name => "Configuration '" ++ name ++ "' not found"
  | .unwritable cause => "IO Error: " ++ cause.message

end StudioMake
