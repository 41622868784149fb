import StudioMake.OrderedMap

/-!
# Tools

The settings of a configuration, kept by the name of the tool they are for.
-/

set_option autoImplicit false

namespace StudioMake

abbrev Settings := OrderedMap String

abbrev Tools := OrderedMap Settings

namespace Tool

def compiler : String := "VCCLCompilerTool"

def linker : String := "VCLinkerTool"

def librarian : String := "VCLibrarianTool"

def resourceCompiler : String := "VCResourceCompilerTool"

def interfaceCompiler : String := "VCMidlTool"

def manifest : String := "VCManifestTool"

def customBuild : String := "VCCustomBuildTool"

def preBuildEvent : String := "VCPreBuildEventTool"

def preLinkEvent : String := "VCPreLinkEventTool"

def postBuildEvent : String := "VCPostBuildEventTool"

end Tool

def OrderedMap.setting? (tools : Tools) (tool name : String) : Option String :=
  (tools.find? tool).bind fun settings => settings.find? name

def OrderedMap.setSetting (tools : Tools) (tool name value : String) : Tools :=
  tools.upsert tool fun settings? => (settings?.getD ∅).insert name value

theorem OrderedMap.setting?_setSetting (tools : Tools) (tool name value tool' name' : String) :
    setting? (setSetting tools tool name value) tool' name' =
      if tool' = tool ∧ name' = name then some value else setting? tools tool' name' := by
  unfold setting? setSetting
  rw [find?_upsert]
  by_cases ht : tool' = tool
  · subst ht
    by_cases hn : name' = name
    · simp [hn, find?_insert]
    · cases h : tools.find? tool' <;> simp [find?_insert, hn]
  · simp [ht]

end StudioMake
