import Mathlib.Data.List.Induction
import StudioMake.MacroTable.Vocabulary
import StudioMake.Proofs.MacroTable.Expansion
import StudioMake.Proofs.VisualStudio.SheetPrecedence
import StudioMake.VisualStudio.Document

/-!
# The directory macros of a configuration

While the tools of a configuration are read, the macro of a directory has the text that the element
gives for it, expanded once; an element that gives none leaves what the configuration before has
set. The directory of the configuration is that text expanded once more, or empty.
-/

set_option autoImplicit false

namespace StudioMake

namespace VisualStudio

open Xml MacroTable

variable {fs : FileSystem} {directory : String} {macros : MacroTable}

def macrosAfter (fs : FileSystem) (directory : String) (macros : MacroTable)
    (es : List Element) : MacroTable :=
  es.foldl (fun macros e => (readConfiguration fs directory macros e).2) macros

theorem readConfigurations_append (es rest : List Element) :
    readConfigurations fs directory macros (es ++ rest) =
      readConfigurations fs directory macros es ++
        readConfigurations fs directory (macrosAfter fs directory macros es) rest := by
  induction es generalizing macros with
  | nil => rfl
  | cons e es ih =>
    rw [List.cons_append, readConfigurations, readConfigurations, List.cons_append]
    exact congrArg ((readConfiguration fs directory macros e).1 :: ·) ih

theorem readConfigurations_concat (es : List Element) (e : Element) :
    readConfigurations fs directory macros (es ++ [e]) =
      readConfigurations fs directory macros es ++
        [(readConfiguration fs directory (macrosAfter fs directory macros es) e).1] :=
  readConfigurations_append es [e]

theorem readConfigurations_singleton (e : Element) :
    readConfigurations fs directory macros [e] = [(readConfiguration fs directory macros e).1] :=
  rfl

theorem get?_readConfiguration (e : Element) :
    (readConfiguration fs directory macros e).2.get? "OutDir" =
        some (readConfiguration fs directory macros e).1.outputDirectory ∧
      (readConfiguration fs directory macros e).2.get? "IntDir" =
        some (readConfiguration fs directory macros e).1.intermediateDirectory := by
  unfold readConfiguration finalMacros setOutputMacros
  constructor
  · rw [get?_set_of_token_ne _ (by decide), get?_set_of_token_ne _ (by decide), get?_set_self]
  · rw [get?_set_self]

/-- After a row of configurations the directory macros hold the directories of the last one. -/
theorem get?_macrosAfter (fs : FileSystem) (directory : String) (macros : MacroTable)
    (es : List Element) :
    (macrosAfter fs directory macros es).get? "OutDir" =
        (((readConfigurations fs directory macros es).getLast?.map
          Configuration.outputDirectory).or (macros.get? "OutDir")) ∧
      (macrosAfter fs directory macros es).get? "IntDir" =
        (((readConfigurations fs directory macros es).getLast?.map
          Configuration.intermediateDirectory).or (macros.get? "IntDir")) := by
  induction es using List.reverseRecOn with
  | nil => exact ⟨rfl, rfl⟩
  | append_singleton es e _ =>
    rw [readConfigurations_concat, macrosAfter, List.foldl_append, List.getLast?_concat]
    exact get?_readConfiguration e

def freshMacros (l : Location) (name rootNamespace : String) : MacroTable :=
  l.setMacros name rootNamespace .vcproj

theorem get?_freshMacros (l : Location) (name rootNamespace : String) :
    (freshMacros l name rootNamespace).get? "OutDir" = some "" ∧
      (freshMacros l name rootNamespace).get? "IntDir" = some "" := by
  unfold freshMacros Location.setMacros
  constructor
  · iterate 6 rw [get?_setAll_of_token_ne _ (by decide)]
    decide +kernel
  · iterate 6 rw [get?_setAll_of_token_ne _ (by decide)]
    decide +kernel

theorem macros_ownAssembly (macros : MacroTable) (e : Element) :
    (ownAssembly macros e).macros =
      if e.hasAttribute "IntermediateDirectory" then
        (outputMacros macros e).set "IntDir" (ownIntermediate macros e)
      else outputMacros macros e := by
  unfold ownAssembly readIntermediate readOutput ownIntermediate outputMacros ownOutput
    Element.hasAttribute
  cases e.attribute? "OutputDirectory" <;> cases e.attribute? "IntermediateDirectory" <;> rfl

/-- The text that an element gives for its output directory, expanded once. -/
def outputText? (macros : MacroTable) (e : Element) : Option String :=
  (e.attribute? "OutputDirectory").map (nameMacros macros e).expand

def intermediateText? (macros : MacroTable) (e : Element) : Option String :=
  (e.attribute? "IntermediateDirectory").map (outputMacros macros e).expand

theorem get?_nameMacros (macros : MacroTable) (e : Element) (name : String)
    (h : ∀ other ∈ ["ConfigurationName", "PlatformName", "Platform"], token name ≠ token other) :
    (nameMacros macros e).get? name = macros.get? name := by
  simp only [List.forall_mem_cons] at h
  unfold nameMacros setNameMacros
  split
  · rw [get?_set_of_token_ne _ h.2.2.1, get?_set_of_token_ne _ h.2.1, get?_set_of_token_ne _ h.1]
  · rfl

theorem get?_outputMacros (macros : MacroTable) (e : Element) :
    (outputMacros macros e).get? "OutDir" =
        (outputText? macros e).or (macros.get? "OutDir") ∧
      (outputMacros macros e).get? "IntDir" = macros.get? "IntDir" := by
  have hout := get?_nameMacros macros e "OutDir" (by decide)
  have hint := get?_nameMacros macros e "IntDir" (by decide)
  unfold outputMacros setOutputMacros ownOutput outputText? Element.hasAttribute
  cases e.attribute? "OutputDirectory" with
  | none => exact ⟨hout, hint⟩
  | some raw =>
    constructor
    · exact (get?_set_of_token_ne _ (by decide)).trans (get?_set_self _ _ _)
    · exact (get?_set_of_token_ne _ (by decide)).trans
        ((get?_set_of_token_ne _ (by decide)).trans hint)

theorem get?_ownAssembly (macros : MacroTable) (e : Element) :
    (ownAssembly macros e).macros.get? "OutDir" =
        (outputText? macros e).or (macros.get? "OutDir") ∧
      (ownAssembly macros e).macros.get? "IntDir" =
        (intermediateText? macros e).or (macros.get? "IntDir") := by
  obtain ⟨hout, hint⟩ := get?_outputMacros macros e
  rw [macros_ownAssembly]
  unfold ownIntermediate intermediateText? Element.hasAttribute
  cases e.attribute? "IntermediateDirectory" with
  | none => exact ⟨hout, hint⟩
  | some raw =>
    exact ⟨(get?_set_of_token_ne _ (by decide)).trans hout, get?_set_self _ _ _⟩

theorem expand_getD (macros : MacroTable) (text? : Option String) :
    macros.expand (text?.getD "") = (text?.map macros.expand).getD "" := by
  cases text? with
  | none => simp [expand, expandFrom]
  | some text => rfl

theorem readConfiguration_of_no_sheets (fs : FileSystem) (directory : String)
    (macros : MacroTable) {e : Element} (h : e.attribute? "InheritedPropertySheets" = none) :
    (readConfiguration fs directory macros e).1.tools =
        collectTools (ownAssembly macros e).macros e ∅ ∧
      (readConfiguration fs directory macros e).1.outputDirectory =
        ((outputText? macros e).map (ownAssembly macros e).macros.expand).getD "" ∧
      (readConfiguration fs directory macros e).1.intermediateDirectory =
        ((intermediateText? macros e).map (ownAssembly macros e).macros.expand).getD "" := by
  have hl : Pending.ofList directory (e.attributeD "InheritedPropertySheets") = [] := by
    have hs : Text.splitList "" = [] := by decide
    rw [Element.attributeD, h, Option.getD_none, Pending.ofList, hs, List.map_nil]
  have hout : (ownAssembly macros e).outputDirectory = (outputText? macros e).getD "" :=
    outputDirectory_ownAssembly macros e
  have hint : (ownAssembly macros e).intermediateDirectory =
      (intermediateText? macros e).getD "" := intermediateDirectory_ownAssembly macros e
  rw [← tools_ownAssembly, ← expand_getD, ← expand_getD, ← hout, ← hint]
  unfold readConfiguration
  rw [hl, addSheets]
  exact ⟨rfl, rfl, rfl⟩

/-- Expanding a directory once more changes nothing; without a text, nothing is left from before. -/
def Settled (macros : MacroTable) (before : String) : Option String → Prop
  | some text => macros.expand text = text
  | none => before = ""

/-- What tools see of a directory through its macro, where `text?` is the text that the element
gives for it, expanded once, and `before` is the directory of the configuration before. -/
structure SeesDirectory (macros : MacroTable) (name : String) (text? : Option String)
    (before final : String) : Prop where
  seen : macros.get? name = some (text?.getD before)
  final_eq : final = (text?.map macros.expand).getD ""
  agree_iff : macros.get? name = some final ↔ Settled macros before text?
  agree_of_no_tokens : ∀ text, text? = some text →
    (∀ token ∈ macros.tokens, Text.contains token text = false) → macros.get? name = some final

theorem seesDirectory {name before final : String} {text? : Option String}
    (hs : macros.get? name = some (text?.getD before))
    (hf : final = (text?.map macros.expand).getD "") :
    SeesDirectory macros name text? before final := by
  have hagree : macros.get? name = some final ↔ Settled macros before text? := by
    rw [hs, hf, Option.some.injEq]
    cases text? with
    | none => exact Iff.rfl
    | some text => exact eq_comm
  refine ⟨hs, hf, hagree, ?_⟩
  rintro text rfl hn
  exact hagree.2 (expand_eq_self hn)

/-- Through each directory macro, the tools of a configuration without sheets see the text that the
element gives, expanded once, or else the directory of the configuration before; the directory
itself is that text expanded once more, or empty. The two agree exactly if the second expansion
changes nothing, as it does where no token is left, and without a text if there is nothing left
from before. A setting written `$(OutDir)` is what the tools see. -/
theorem tools_see_directories (fs : FileSystem) (l : Location) (name rootNamespace : String)
    (earlier : List Element) {e : Element} (h : e.attribute? "InheritedPropertySheets" = none) :
    let start := freshMacros l name rootNamespace
    let macros := macrosAfter fs l.directory start earlier
    let before := readConfigurations fs l.directory start earlier
    let seen := (ownAssembly macros e).macros
    let c := (readConfiguration fs l.directory macros e).1
    readConfigurations fs l.directory start (earlier ++ [e]) = before ++ [c] ∧
    c.tools = collectTools seen e ∅ ∧
    SeesDirectory seen "OutDir" (outputText? macros e)
      ((before.getLast?.map Configuration.outputDirectory).getD "") c.outputDirectory ∧
    SeesDirectory seen "IntDir" (intermediateText? macros e)
      ((before.getLast?.map Configuration.intermediateDirectory).getD "")
      c.intermediateDirectory ∧
    ∀ tool setting, written? tool setting e = some "$(OutDir)" →
      c.tools.setting? tool setting = seen.get? "OutDir" := by
  intro start macros before seen c
  obtain ⟨htools, hout, hint⟩ := readConfiguration_of_no_sheets fs l.directory macros h
  obtain ⟨hstartOut, hstartInt⟩ := get?_freshMacros l name rootNamespace
  obtain ⟨hleftOut, hleftInt⟩ := get?_macrosAfter fs l.directory start earlier
  obtain ⟨hseenOut, hseenInt⟩ := get?_ownAssembly macros e
  have houtput : SeesDirectory seen "OutDir" (outputText? macros e)
      ((before.getLast?.map Configuration.outputDirectory).getD "") c.outputDirectory := by
    refine seesDirectory ?_ hout
    rw [hseenOut, hleftOut, hstartOut]
    cases outputText? macros e <;> cases before.getLast? <;> rfl
  have hintermediate : SeesDirectory seen "IntDir" (intermediateText? macros e)
      ((before.getLast?.map Configuration.intermediateDirectory).getD "")
      c.intermediateDirectory := by
    refine seesDirectory ?_ hint
    rw [hseenInt, hleftInt, hstartInt]
    cases intermediateText? macros e <;> cases before.getLast? <;> rfl
  refine ⟨readConfigurations_concat earlier e, htools, houtput, hintermediate, ?_⟩
  intro tool setting hw
  have ht : "$(OutDir)" = "$(" ++ "OutDir" ++ ")" := by decide
  rw [htools, setting?_collectTools, hw, Option.map_some, Option.some_or, houtput.seen, ht,
    expand_token (by decide) houtput.seen]

def configurationElement (attributes : List (String × String)) : Element :=
  { name := "Configuration"
    attributes
    children :=
      [{ name := "Tool"
         attributes := [("Name", "VCLinkerTool"), ("OutputFile", "$(OutDir)")] }] }

def debugElement : Element :=
  configurationElement [("Name", "Debug|Win32"), ("OutputDirectory", "$(ConfigurationName)")]

def plainElement : Element := configurationElement [("Name", "Release|Win32")]

def nestedElement : Element :=
  configurationElement [("Name", "Debug|Win32"), ("OutputDirectory", "$(Plat$(Inherit)form)")]

def appLocation : Location := ⟨"App.vcproj", "/work/App.vcproj", "/work"⟩

def appMacros : MacroTable := freshMacros appLocation "App" ""

theorem outputText?_debugElement (macros : MacroTable) :
    outputText? macros debugElement = some "Debug" := by
  have hname : (nameMacros macros debugElement).get? "ConfigurationName" = some "Debug" :=
    (get?_set_of_token_ne _ (by decide)).trans
      ((get?_set_of_token_ne _ (by decide)).trans (get?_set_self _ _ _))
  have ha : debugElement.attribute? "OutputDirectory" =
      some ("$(" ++ "ConfigurationName" ++ ")") := by decide
  rw [outputText?, ha, Option.map_some, expand_token (by decide) hname]

theorem tools_see_directories_debug :
    let macros := macrosAfter {} "/work" appMacros [plainElement]
    let c := (readConfiguration {} "/work" macros debugElement).1
    debugElement.attribute? "InheritedPropertySheets" = none ∧
    c.outputDirectory = "Debug" ∧
    c.tools.setting? "VCLinkerTool" "OutputFile" = some "Debug" := by
  have hn : debugElement.attribute? "InheritedPropertySheets" = none := by decide
  obtain ⟨-, -, hout, -, hset⟩ := tools_see_directories {} appLocation "App" "" [plainElement] hn
  have hc := hout.final_eq
  have ho := (hset "VCLinkerTool" "OutputFile" (by decide)).trans hout.seen
  rw [outputText?_debugElement] at hc ho
  exact ⟨hn, hc.trans (expand_of_no_dollar (by decide)), ho⟩

def macrosAfterDebug : MacroTable := macrosAfter {} "/work" appMacros [debugElement]

theorem get?_ownAssembly_plainElement :
    (ownAssembly macrosAfterDebug plainElement).macros.get? "OutDir" = some "Debug" := by
  have hd : (readConfiguration {} "/work" appMacros debugElement).1.outputDirectory = "Debug" := by
    rw [(readConfiguration_of_no_sheets {} "/work" appMacros (by decide)).2.1,
      outputText?_debugElement]
    exact expand_of_no_dollar (by decide)
  have hnone : outputText? macrosAfterDebug plainElement = none := by
    rw [outputText?, show plainElement.attribute? "OutputDirectory" = none by decide,
      Option.map_none]
  rw [(get?_ownAssembly macrosAfterDebug plainElement).1, hnone, Option.none_or, macrosAfterDebug,
    (get?_macrosAfter {} "/work" appMacros [debugElement]).1, readConfigurations_singleton,
    List.getLast?_singleton, Option.map_some, hd, Option.some_or]

theorem outputDirectory_plainElement :
    (readConfiguration {} "/work" macrosAfterDebug plainElement).1.outputDirectory = "" :=
  (readConfiguration_of_no_sheets {} "/work" macrosAfterDebug (by decide)).2.1

/-- Tools see the directory of the configuration before where there is none; and where a directory
is a token once it is expanded, they see the token and not its value. -/
theorem tools_see_other_directories :
    ((ownAssembly macrosAfterDebug plainElement).macros.get? "OutDir" = some "Debug" ∧
      (readConfiguration {} "/work" macrosAfterDebug plainElement).1.outputDirectory = "") ∧
    ((ownAssembly appMacros nestedElement).macros.get? "OutDir" = some "$(Platform)" ∧
      (readConfiguration {} "/work" appMacros nestedElement).1.outputDirectory = "Win32") ∧
    ¬ ∀ (fs : FileSystem) (l : Location) (name rootNamespace : String) (earlier : List Element)
        (e : Element), e.hasAttribute "Name" = true →
        e.attribute? "InheritedPropertySheets" = none →
      let macros := macrosAfter fs l.directory (freshMacros l name rootNamespace) earlier
      (ownAssembly macros e).macros.get? "OutDir" =
        some (readConfiguration fs l.directory macros e).1.outputDirectory := by
  refine ⟨⟨get?_ownAssembly_plainElement, outputDirectory_plainElement⟩,
    ⟨by decide +kernel, ?_⟩, ?_⟩
  · exact (readConfiguration_of_no_sheets {} "/work" appMacros (by decide)).2.1.trans
      (by decide +kernel)
  · intro h
    have hp : (ownAssembly macrosAfterDebug plainElement).macros.get? "OutDir" =
        some (readConfiguration {} "/work" macrosAfterDebug plainElement).1.outputDirectory :=
      h {} appLocation "App" "" [debugElement] plainElement (by decide) (by decide)
    rw [get?_ownAssembly_plainElement, outputDirectory_plainElement] at hp
    exact absurd hp (by decide)

end VisualStudio

end StudioMake
