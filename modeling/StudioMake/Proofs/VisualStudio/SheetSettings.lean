import StudioMake.Proofs.OrderedMap
import StudioMake.VisualStudio.Configuration

/-!
# What sheets write

A tool element writes settings, and of several values for one the last counts; so it is with the
tool children of an element, and with the sheets that are added one after the other. The tools of a
sheet are read with the macros that it and those before it define.
-/

set_option autoImplicit false

namespace StudioMake

namespace VisualStudio

open Xml

variable {tool name : String}

def lastValue? (name : String) (l : List (String × String)) : Option String :=
  lastSome? (fun item => if item.1 = name then some item.2 else none) l

def toolValue? (tool name : String) (e : Element) : Option String :=
  if e.attribute? "Name" = some tool then
    lastValue? name (e.attributes.filter fun item => item.1 ≠ "Name")
  else none

/-- What the tool children of an element write for a setting; the last one counts. -/
def written? (tool name : String) (e : Element) : Option String :=
  lastSome? (toolValue? tool name) (e.childrenNamed "Tool")

def Names (tool : String) (e : Element) : Prop :=
  ∃ child ∈ e.childrenNamed "Tool", child.attribute? "Name" = some tool

theorem find?_insertAll (settings : Settings) (l : List (String × String)) :
    (settings.insertAll l).find? name = (lastValue? name l).or (settings.find? name) :=
  OrderedMap.find?_insertAll settings l

theorem lastValue?_map (f : String → String) (l : List (String × String)) :
    lastValue? name (l.map fun item => (item.1, f item.2)) = (lastValue? name l).map f := by
  rw [lastValue?, lastSome?_comp, lastValue?, ← lastSome?_map]
  congr 1
  funext item
  by_cases h : item.1 = name
  · simp [h]
  · simp [h]

theorem setting?_addTool (macros : MacroTable) (tools : Tools) (e : Element) :
    (addTool macros tools e).setting? tool name =
      ((toolValue? tool name e).map macros.expand).or (tools.setting? tool name) := by
  unfold addTool
  cases he : e.attribute? "Name" with
  | none => simp [toolValue?, he]
  | some other =>
    simp only [OrderedMap.setting?, OrderedMap.find?_upsert]
    by_cases ht : tool = other
    · subst ht
      simp only [if_true, Option.bind_some]
      rw [find?_insertAll, toolSettings, lastValue?_map, toolValue?, if_pos he]
      cases tools.find? tool <;> rfl
    · simp [toolValue?, he, ht, Ne.symm ht]

theorem setting?_collectTools (macros : MacroTable) (e : Element) (tools : Tools) :
    (collectTools macros e tools).setting? tool name =
      ((written? tool name e).map macros.expand).or (tools.setting? tool name) := by
  rw [written?, ← lastSome?_map]
  exact get_foldl_eq_lastSome? (fun tools : Tools => tools.setting? tool name)
    (fun tools child => setting?_addTool macros tools child) _ tools

theorem mem_keys_addTool (macros : MacroTable) (tools : Tools) (e : Element) :
    tool ∈ (addTool macros tools e).keys ↔ e.attribute? "Name" = some tool ∨ tool ∈ tools.keys := by
  unfold addTool
  cases he : e.attribute? "Name" with
  | none => simp
  | some other =>
    simp only [OrderedMap.keys_upsert, Option.some.injEq]
    by_cases hm : other ∈ tools.keys
    · rw [if_pos hm]
      constructor
      · intro h
        exact .inr h
      · intro h
        rcases h with rfl | h
        · exact hm
        · exact h
    · rw [if_neg hm, List.mem_append, List.mem_singleton, or_comm, eq_comm]

theorem mem_keys_collectTools (macros : MacroTable) (e : Element) (tools : Tools) :
    tool ∈ (collectTools macros e tools).keys ↔ Names tool e ∨ tool ∈ tools.keys := by
  apply foldl_iff_exists fun tools : Tools => tool ∈ tools.keys
  intro tools child
  exact mem_keys_addTool macros tools child

def sheetMacros (macros : MacroTable) (sheet : Element) : MacroTable :=
  (sheet.childrenNamed "UserMacro").foldl Assembly.defineMacro macros

/-- Each sheet with the macros that its tools are read with. -/
def withMacros : MacroTable → List Element → List (MacroTable × Element)
  | _, [] => []
  | macros, sheet :: rest =>
    (sheetMacros macros sheet, sheet) :: withMacros (sheetMacros macros sheet) rest

theorem setting?_addSheets (sheets : List Element) (a : Assembly) :
    (sheets.foldl Assembly.addSheet a).tools.setting? tool name =
      (lastSome? (fun item => (written? tool name item.2).map item.1.expand)
        (withMacros a.macros sheets)).or (a.tools.setting? tool name) := by
  induction sheets generalizing a with
  | nil => rfl
  | cons sheet sheets ih =>
    rw [List.foldl_cons, ih, withMacros, lastSome?_cons, Option.or_assoc]
    congr 1
    exact setting?_collectTools (sheetMacros a.macros sheet) sheet a.tools

theorem tools_addSheets (sheets : List Element) (a : Assembly) :
    (sheets.foldl Assembly.addSheet a).tools =
      (withMacros a.macros sheets).foldl (fun tools item => collectTools item.1 item.2 tools)
        a.tools := by
  induction sheets generalizing a with
  | nil => rfl
  | cons sheet sheets ih => exact ih (a.addSheet sheet)

theorem mem_keys_addSheets (sheets : List Element) (a : Assembly) :
    tool ∈ (sheets.foldl Assembly.addSheet a).tools.keys ↔
      (∃ sheet ∈ sheets, Names tool sheet) ∨ tool ∈ a.tools.keys := by
  apply foldl_iff_exists fun a : Assembly => tool ∈ a.tools.keys
  intro a sheet
  exact mem_keys_collectTools (sheetMacros a.macros sheet) sheet a.tools

theorem outputDirectory_addSheets (sheets : List Element) (a : Assembly) :
    (sheets.foldl Assembly.addSheet a).outputDirectory =
      (lastSome? (·.attribute? "OutputDirectory") sheets).getD a.outputDirectory := by
  apply get_foldl_eq_getD Assembly.outputDirectory
  intro a sheet
  rfl

theorem intermediateDirectory_addSheets (sheets : List Element) (a : Assembly) :
    (sheets.foldl Assembly.addSheet a).intermediateDirectory =
      (lastSome? (·.attribute? "IntermediateDirectory") sheets).getD a.intermediateDirectory := by
  apply get_foldl_eq_getD Assembly.intermediateDirectory
  intro a sheet
  rfl

theorem map_snd_withMacros (macros : MacroTable) (sheets : List Element) :
    (withMacros macros sheets).map Prod.snd = sheets := by
  induction sheets generalizing macros with
  | nil => rfl
  | cons sheet sheets ih => rw [withMacros, List.map_cons, ih]

theorem lastSome?_withMacros_eq_none_iff (macros : MacroTable) (sheets : List Element) :
    lastSome? (fun item => (written? tool name item.2).map item.1.expand)
      (withMacros macros sheets) = none ↔ ∀ sheet ∈ sheets, written? tool name sheet = none := by
  rw [lastSome?_eq_none_iff]
  conv => rhs; rw [← map_snd_withMacros macros sheets]
  simp only [List.mem_map, Option.map_eq_none_iff]
  constructor
  · intro h sheet hs
    obtain ⟨item, hi, rfl⟩ := hs
    exact h item hi
  · intro h item hi
    exact h item.2 ⟨item, hi, rfl⟩

def nameMacros (macros : MacroTable) (e : Element) : MacroTable :=
  setNameMacros macros e (.ofName (e.attributeD "Name"))

def ownOutput (macros : MacroTable) (e : Element) : String :=
  ((e.attribute? "OutputDirectory").map (nameMacros macros e).expand).getD ""

def outputMacros (macros : MacroTable) (e : Element) : MacroTable :=
  if e.hasAttribute "OutputDirectory" then
    setOutputMacros (nameMacros macros e) (ownOutput macros e)
  else nameMacros macros e

def ownIntermediate (macros : MacroTable) (e : Element) : String :=
  ((e.attribute? "IntermediateDirectory").map (outputMacros macros e).expand).getD ""

theorem outputDirectory_ownAssembly (macros : MacroTable) (e : Element) :
    (ownAssembly macros e).outputDirectory = ownOutput macros e := by
  unfold ownAssembly readIntermediate readOutput ownOutput
  cases e.attribute? "OutputDirectory" <;> cases e.attribute? "IntermediateDirectory" <;> rfl

theorem intermediateDirectory_ownAssembly (macros : MacroTable) (e : Element) :
    (ownAssembly macros e).intermediateDirectory = ownIntermediate macros e := by
  unfold ownAssembly readIntermediate readOutput ownIntermediate outputMacros ownOutput
    Element.hasAttribute
  cases e.attribute? "OutputDirectory" <;> cases e.attribute? "IntermediateDirectory" <;> rfl

theorem tools_ownAssembly (macros : MacroTable) (e : Element) :
    (ownAssembly macros e).tools = collectTools (ownAssembly macros e).macros e ∅ := by
  unfold ownAssembly readIntermediate readOutput
  cases e.attribute? "OutputDirectory" <;> cases e.attribute? "IntermediateDirectory" <;> rfl

end VisualStudio

end StudioMake
