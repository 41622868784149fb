/-!
# Letter case

Names of properties, variables and keywords agree when they differ only in the case of ASCII
letters; other letters keep their case.
-/

set_option autoImplicit false

namespace StudioMake.Text

def lower (s : String) : String :=
  String.ofList (s.toList.map Char.toLower)

def sameIgnoringCase (a b : String) : Bool :=
  lower a == lower b

theorem sameIgnoringCase_iff {a b : String} : sameIgnoringCase a b = true ↔ lower a = lower b := by
  simp [sameIgnoringCase]

theorem sameIgnoringCase_self (a : String) : sameIgnoringCase a a = true := by
  simp [sameIgnoringCase]

end StudioMake.Text
