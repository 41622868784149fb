import StudioMake.Failure
import StudioMake.Makefile.ConfigurationRules

/-!
# The makefile of a project

The flags that every configuration shares come first, then the rules that list, build and clean
configurations, then the rules of each configuration. A rule named like a configuration without its
platform builds it for every platform.
-/

set_option autoImplicit false

namespace StudioMake.Makefile

def globals (p : Project) : List Statement :=
  [.comment ("Generated from " ++ p.path),
   .assign "CFLAGS" .append "$(CURRENT_CFLAGS)",
   .assign "CPPFLAGS" .append "$(CURRENT_CPPFLAGS)",
   .assign "CXXFLAGS" .append
     ("--std=gnu++0x $(CURRENT_CXXFLAGS) -I" ++ Path.toUnix p.directory ++ " -Wall -Wextra"),
   .assign "LDFLAGS" .append "$(CURRENT_LDFLAGS)",
   .assign "ARFLAGS" .recursive "-rcs $(CURRENT_ARFLAGS)",
   .assign "PROJECT_NAME" .simple p.name,
   .assign "OUTDIR" .recursive "$(CURRENT_OUTDIR)",
   .assign "INTDIR" .recursive "$(CURRENT_INTDIR)",
   .assign "TARGET" .recursive "$(CURRENT_OUTDIR)/$(CURRENT_TARGET)",
   .blank]

def generalRule (c : Configuration) : String := Configuration.targetName c.configurationName

/-- The rules that build for every platform; a name without a character for it has none. -/
def generalRules (p : Project) : List String :=
  Text.sortedDistinct ((p.configurations.map generalRule).filter (· ≠ ""))

def specificRules (p : Project) : List String :=
  Text.sortedDistinct (p.configurations.map Configuration.ruleName)

def defaultRule (p : Project) : Statement :=
  .rule "default" []
    (echo "Available build rules:" ::
      (generalRules p ++ specificRules p ++ ["all", "clean"]).map fun name => echo ("  " ++ name))

def membersOf (p : Project) (general : String) : List String :=
  (p.configurations.filter (generalRule · = general)).map Configuration.ruleName

def toplevel (p : Project) : List Statement :=
  [defaultRule p, .blank,
   .group ".PHONY" ["default", "all", "clean"] (generalRules p),
   .group "all" [] (generalRules p), .blank,
   .rule "clean" [] (p.configurations.map removeObjects), .blank] ++
  (generalRules p).map (fun general => .group general [] (membersOf p general)) ++ [.blank]

def statements (p : Project) : List Statement :=
  globals p ++ toplevel p ++ p.configurations.flatMap (configurationRules p)

def ofProject (p : Project) : String := render (statements p)

def pathIn (directory : String) : String := Path.join directory "Makefile"

def writeTo (fs : FileSystem) (directory : String) (p : Project) : Except Failure FileSystem :=
  match fs.write (pathIn directory) (ofProject p).toUTF8.toList with
  | .ok fs => .ok fs
  | .error cause => .error (.unwritable cause)

end StudioMake.Makefile
