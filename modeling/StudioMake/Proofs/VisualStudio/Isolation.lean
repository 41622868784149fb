import StudioMake.MacroTable.Vocabulary
import StudioMake.Proofs.MacroTable.Expansion
import StudioMake.Proofs.VisualStudio.SheetTraversal

/-!
# Configurations that do not see the ones before them

A configuration sets the macros for its name and its directories before it reads anything else. If
it gives all three, and its directories do not refer to those of the configuration before, nothing
that the configuration before has set for itself shows in it or is left after it.
-/

set_option autoImplicit false

namespace StudioMake.VisualStudio

open Xml MacroTable

/-- The macros that a configuration sets for itself. -/
def ownNames : List String :=
  ["ConfigurationName", "PlatformName", "Platform", "OutDir", "TargetDir", "IntDir"]

/-- Two assemblies that nothing tells apart but the order of their macros. -/
structure Assembly.Alike (a b : Assembly) : Prop where
  tools : a.tools = b.tools
  outputDirectory : a.outputDirectory = b.outputDirectory
  intermediateDirectory : a.intermediateDirectory = b.intermediateDirectory
  macros : AgreeOutside [] a.macros b.macros

variable {fs : FileSystem} {directory : String} {m n : MacroTable}

theorem expand_eq (h : AgreeOutside [] m n) (text : String) : m.expand text = n.expand text :=
  h.expand fun _ hn => absurd hn List.not_mem_nil

theorem collectTools_eq (h : AgreeOutside [] m n) (e : Element) (tools : Tools) :
    collectTools m e tools = collectTools n e tools := by
  unfold collectTools addTool toolSettings
  simp only [expand_eq h]

theorem agree_defineMacro (h : AgreeOutside [] m n) (definition : Element) :
    AgreeOutside [] (Assembly.defineMacro m definition) (Assembly.defineMacro n definition) := by
  unfold Assembly.defineMacro
  cases definition.attribute? "Name" with
  | none => exact h
  | some name =>
    simp only [expand_eq h]
    exact h.set name _

theorem agree_defineMacros (h : AgreeOutside [] m n) (definitions : List Element) :
    AgreeOutside [] (definitions.foldl Assembly.defineMacro m)
      (definitions.foldl Assembly.defineMacro n) := by
  induction definitions generalizing m n with
  | nil => exact h
  | cons definition rest ih => exact ih (agree_defineMacro h definition)

namespace Assembly.Alike

variable {a b : Assembly}

theorem addSheet (h : a.Alike b) (sheet : Element) :
    (a.addSheet sheet).Alike (b.addSheet sheet) := by
  have hm := agree_defineMacros h.macros (sheet.childrenNamed "UserMacro")
  constructor
  · simp only [Assembly.addSheet]
    rw [collectTools_eq hm, h.tools]
  · simp only [Assembly.addSheet, h.outputDirectory]
  · simp only [Assembly.addSheet, h.intermediateDirectory]
  · exact hm

theorem sheetPath (h : a.Alike b) (directory entry : String) :
    a.sheetPath directory entry = b.sheetPath directory entry := by
  rw [Assembly.sheetPath, Assembly.sheetPath, expand_eq h.macros]

end Assembly.Alike

theorem alike_addSheets (fs : FileSystem) {a b : Assembly} (h : a.Alike b)
    (pending : List Pending) (reached : List NormalPath) :
    (addSheets fs pending reached a).1 = (addSheets fs pending reached b).1 ∧
      (addSheets fs pending reached a).2.Alike (addSheets fs pending reached b).2 := by
  fun_induction addSheets fs pending reached a generalizing b with
  | case1 reached a =>
    rw [addSheets]
    exact ⟨rfl, h⟩
  | case2 sheet rest reached a ih =>
    rw [addSheets]
    exact ih (h.addSheet sheet)
  | case3 directory entry rest reached a hr ih =>
    rw [addSheets, ← h.sheetPath, if_pos hr]
    exact ih h
  | case4 directory entry rest reached a hr ih =>
    rw [addSheets, ← h.sheetPath, if_neg hr]
    exact ih h

variable {e : Element} {output intermediate : String}

theorem agree_setNameMacros (hn : e.hasAttribute "Name" = true) (h : AgreeOutside ownNames m n)
    (c : Configuration) :
    AgreeOutside ["OutDir", "TargetDir", "IntDir"] (setNameMacros m e c) (setNameMacros n e c) := by
  rw [setNameMacros, if_pos hn, setNameMacros, if_pos hn]
  exact ((h.set_head c.configurationName).set_head c.platform).set_head c.platform

theorem agree_setOutputMacros (h : AgreeOutside ["OutDir", "TargetDir", "IntDir"] m n)
    (output : String) :
    AgreeOutside ["IntDir"] (setOutputMacros m output) (setOutputMacros n output) :=
  (h.set_head output).set_head (Path.withTrailingSeparator output)

theorem alike_ownAssembly (hn : e.hasAttribute "Name" = true)
    (ho : e.attribute? "OutputDirectory" = some output)
    (hi : e.attribute? "IntermediateDirectory" = some intermediate)
    (hot : ∀ token ∈ ["$(OutDir)", "$(TargetDir)", "$(IntDir)"],
      Text.contains token output = false)
    (hit : Text.contains "$(IntDir)" intermediate = false) (h : AgreeOutside ownNames m n) :
    (ownAssembly m e).Alike (ownAssembly n e) := by
  have hnamed := agree_setNameMacros hn h (.ofName (e.attributeD "Name"))
  simp only [ownAssembly, readIntermediate, readOutput, ho, hi]
  generalize setNameMacros m e (.ofName (e.attributeD "Name")) = m₁ at hnamed
  generalize setNameMacros n e (.ofName (e.attributeD "Name")) = n₁ at hnamed
  have hout : m₁.expand output = n₁.expand output :=
    hnamed.expand (by simpa [token, bare?] using hot)
  have houtput := agree_setOutputMacros hnamed (n₁.expand output)
  rw [hout]
  generalize setOutputMacros m₁ (n₁.expand output) = m₂ at houtput
  generalize setOutputMacros n₁ (n₁.expand output) = n₂ at houtput
  have hint : m₂.expand intermediate = n₂.expand intermediate :=
    houtput.expand (by simpa [token, bare?] using hit)
  have hown := houtput.set_head (n₂.expand intermediate)
  rw [hint]
  exact ⟨collectTools_eq hown e ∅, rfl, rfl, hown⟩

/-- A configuration that gives its name and both directories, in texts that do not refer to the
directories set before, is the same after any two tables that agree outside the macros that a
configuration sets for itself; and it leaves tables that agree on every token. -/
theorem configuration_isolated (hn : e.hasAttribute "Name" = true)
    (ho : e.attribute? "OutputDirectory" = some output)
    (hi : e.attribute? "IntermediateDirectory" = some intermediate)
    (hot : ∀ token ∈ ["$(OutDir)", "$(TargetDir)", "$(IntDir)"],
      Text.contains token output = false)
    (hit : Text.contains "$(IntDir)" intermediate = false) (h : AgreeOutside ownNames m n) :
    (readConfiguration fs directory m e).1 = (readConfiguration fs directory n e).1 ∧
      ∀ token, (readConfiguration fs directory m e).2.values.find? token =
        (readConfiguration fs directory n e).2.values.find? token := by
  obtain ⟨hsheets, ha⟩ := alike_addSheets fs (alike_ownAssembly hn ho hi hot hit h)
    (Pending.ofList directory (e.attributeD "InheritedPropertySheets")) []
  unfold readConfiguration
  generalize addSheets fs _ [] (ownAssembly m e) = left at hsheets ha
  generalize addSheets fs _ [] (ownAssembly n e) = right at hsheets ha
  obtain ⟨sheets, a⟩ := left
  obtain ⟨sheets', b⟩ := right
  obtain rfl : sheets = sheets' := hsheets
  simp only at ha ⊢
  have hout : a.macros.expand a.outputDirectory = b.macros.expand b.outputDirectory := by
    rw [expand_eq ha.macros, ha.outputDirectory]
  have hint : a.macros.expand a.intermediateDirectory =
      b.macros.expand b.intermediateDirectory := by
    rw [expand_eq ha.macros, ha.intermediateDirectory]
  rw [hout, hint]
  have hf : AgreeOutside []
      (finalMacros a.macros (b.macros.expand b.outputDirectory)
        (b.macros.expand b.intermediateDirectory))
      (finalMacros b.macros (b.macros.expand b.outputDirectory)
        (b.macros.expand b.intermediateDirectory)) :=
    ((ha.macros.set _ _).set _ _).set _ _
  constructor
  · simp only [expand_eq hf, ha.tools]
  · intro token
    exact hf token List.not_mem_nil

def selfContained : Element :=
  { name := "Configuration"
    attributes :=
      [("Name", "Release|Win32"), ("OutputDirectory", "$(ConfigurationName)"),
       ("IntermediateDirectory", "$(OutDir)\\obj"), ("InheritedPropertySheets", "common.vsprops")]
    children :=
      [{ name := "Tool"
         attributes := [("Name", "VCLinkerTool"), ("OutputFile", "$(TargetDir)app.exe")] }] }

def commonSheet : FileSystem :=
  { entries :=
      [(["work", "common.vsprops"],
        .file ("<VisualStudioPropertySheet><UserMacro Name='Root' Value='$(OutDir)'/>" ++
          "<Tool Name='VCLinkerTool' OutputFile='$(Root)'/>" ++
          "</VisualStudioPropertySheet>").toUTF8.toList)] }

theorem configuration_isolated_selfContained :
    (vcproj.set "OutDir" "Debug").get? "OutDir" ≠ vcproj.get? "OutDir" ∧
    AgreeOutside ownNames (vcproj.set "OutDir" "Debug") vcproj ∧
    (readConfiguration commonSheet "/work" (vcproj.set "OutDir" "Debug") selfContained).1 =
      (readConfiguration commonSheet "/work" vcproj selfContained).1 := by
  have h : AgreeOutside ownNames (vcproj.set "OutDir" "Debug") vcproj :=
    (AgreeOutside.refl ownNames vcproj).set_left (by decide) "Debug"
  have hot : ∀ token ∈ ["$(OutDir)", "$(TargetDir)", "$(IntDir)"],
      Text.contains token "$(ConfigurationName)" = false := by decide +kernel
  have hit : Text.contains "$(IntDir)" "$(OutDir)\\obj" = false := by decide +kernel
  have hc := @configuration_isolated commonSheet "/work" (vcproj.set "OutDir" "Debug") vcproj
    selfContained "$(ConfigurationName)" "$(OutDir)\\obj" (by decide) (by decide) (by decide)
    hot hit h
  exact ⟨by decide +kernel, h, hc.1⟩

end StudioMake.VisualStudio
