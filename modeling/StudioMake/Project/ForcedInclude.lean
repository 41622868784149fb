import StudioMake.Project.Configuration
import StudioMake.Text.Search

/-!
# Forced includes

A configuration forces the inclusion of every file whose path holds one of the fragments that its
compiler settings list.
-/

set_option autoImplicit false

namespace StudioMake

def Configuration.forcesInclude (c : Configuration) (path : String) : Bool :=
  (c.tools.setting? Tool.compiler "ForcedIncludeFiles").any fun fragments =>
    (Text.splitList fragments).any fun fragment => Text.contains fragment path

def isForcedInclude (configurations : List Configuration) (path : String) : Bool :=
  configurations.any fun c => c.forcesInclude path

end StudioMake
