import StudioMake.MacroTable.Basic
import StudioMake.Tool.Basic
import StudioMake.Xml.Element

/-!
# Tool elements

`<Tool Name="…" Key="Value" …/>` children hold the settings of the tools. Tools of one name are
merged, and of several values for one key the last one counts.
-/

set_option autoImplicit false

namespace StudioMake.VisualStudio

open Xml

def toolSettings (macros : MacroTable) (tool : Element) : List (String × String) :=
  (tool.attributes.filter fun item => item.1 ≠ "Name").map fun item =>
    (item.1, macros.expand item.2)

/-- Merges a tool element into the tools; one without a name is passed over. -/
def addTool (macros : MacroTable) (tools : Tools) (tool : Element) : Tools :=
  match tool.attribute? "Name" with
  | none => tools
  | some name => tools.upsert name fun settings? =>
      (settings?.getD ∅).insertAll (toolSettings macros tool)

def collectTools (macros : MacroTable) (e : Element) (tools : Tools) : Tools :=
  (e.childrenNamed "Tool").foldl (addTool macros) tools

end StudioMake.VisualStudio
