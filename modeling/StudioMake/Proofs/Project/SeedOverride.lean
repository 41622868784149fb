import StudioMake.Proofs.MacroTable.Alignment
import StudioMake.Proofs.MSBuild.MacroOrder
import StudioMake.Proofs.Project.SourceText

/-!
# Seeds that a project overrides

A project sets the macros that name it and its place before a text of it is expanded, and the
evaluation of a configuration those that name the configuration and its directories. Seeds for these
macros do not show: the tables with which configurations are read are equal with and without them.
-/

set_option autoImplicit false

namespace StudioMake

open MacroTable

def Project.ownNames : List String :=
  ["ProjectName", "InputName", "TargetName", "SafeInputName", "RootNameSpace", "SafeRootNamespace",
   "ProjectDir", "InputDir", "ProjectPath", "InputPath", "ProjectFileName", "InputFileName",
   "ProjectExt", "InputExt"]

def MSBuild.Evaluation.ownNames : List String :=
  ["Configuration", "Platform", "TargetDir", "OutDir", "IntDir"]

/-- The macros that projects of a format set for themselves. -/
def Format.ownNames : Format → List String
  | .vcxproj => Project.ownNames ++ MSBuild.Evaluation.ownNames
  | _ => Project.ownNames

theorem Format.ownNames_subset (format : Format) :
    ∀ name ∈ format.ownNames, name ∈ Seeds.vocabulary format := by
  cases format <;> decide +kernel

theorem Location.aligned_setMacros {names : List String} {m n : MacroTable}
    (h : Aligned (Project.ownNames ++ names) m n) (l : Location) (name rootNamespace : String) :
    Aligned names (l.setMacros name rootNamespace m) (l.setMacros name rootNamespace n) := by
  have hgroups : Aligned
      (["ProjectName", "InputName", "TargetName", "SafeInputName"] ++
        (["RootNameSpace", "SafeRootNamespace"] ++ (["ProjectDir", "InputDir"] ++
          (["ProjectPath", "InputPath"] ++ (["ProjectFileName", "InputFileName"] ++
            (["ProjectExt", "InputExt"] ++ names)))))) m n := h
  exact (((((hgroups.setAll _).setAll _).setAll _).setAll _).setAll _).setAll _

namespace MSBuild

open Xml

namespace Evaluation

variable {names : List String} {name raw : String} {s t : Evaluation}

/-- Evaluations of one configuration with aligned tables. -/
structure Aligned (names : List String) (s t : Evaluation) : Prop where
  configuration_eq : s.configuration = t.configuration
  macros : MacroTable.Aligned names s.macros t.macros

namespace Aligned

theorem eq_of_nil (h : Aligned [] s t) : s = t := by
  cases s
  cases t
  cases h.configuration_eq
  cases h.macros.eq_of_nil
  rfl

theorem expand (h : Aligned names s t)
    (hraw : ∀ name ∈ names, Text.contains (token name) (Text.trim raw) = false) :
    s.macros.expand (Text.trim raw) = t.macros.expand (Text.trim raw) :=
  h.macros.expand hraw

theorem setProperty (h : Aligned (name :: names) s t) (hn : name ≠ "OutDir")
    (hraw : ∀ other ∈ name :: names, Text.contains (token other) (Text.trim raw) = false) :
    Aligned names (s.setProperty name raw) (t.setProperty name raw) where
  configuration_eq := by
    rw [Evaluation.setProperty, Evaluation.setProperty, h.expand hraw, h.configuration_eq]
  macros := by
    rw [Evaluation.setProperty, Evaluation.setProperty, if_neg hn, if_neg hn, h.expand hraw]
    exact h.macros.set_head _

theorem setOutput (h : Aligned ("TargetDir" :: "OutDir" :: names) s t)
    (hraw : ∀ name ∈ "TargetDir" :: "OutDir" :: names,
      Text.contains (token name) (Text.trim raw) = false) :
    Aligned names (s.setProperty "OutDir" raw) (t.setProperty "OutDir" raw) where
  configuration_eq := by
    rw [Evaluation.setProperty, Evaluation.setProperty, h.expand hraw, h.configuration_eq]
  macros := by
    rw [Evaluation.setProperty, Evaluation.setProperty, if_pos rfl, if_pos rfl, h.expand hraw]
    exact (h.macros.set_head _).set_head _

end Aligned

theorem defaultDirectories_clear (platform : String) :
    (∀ name ∈ ["TargetDir", "OutDir", "IntDir"],
      Text.contains (token name) (Text.trim (defaultDirectories platform).1) = false) ∧
    ∀ name ∈ ["IntDir"],
      Text.contains (token name) (Text.trim (defaultDirectories platform).2) = false := by
  unfold defaultDirectories
  split
  · decide +kernel
  · decide +kernel

theorem start_eq {m n : MacroTable} (h : MacroTable.Aligned ownNames m n)
    (name configuration platform : String) :
    start name configuration platform m = start name configuration platform n := by
  have hnamed : Aligned ["TargetDir", "OutDir", "IntDir"]
      { configuration := { name, configurationName := configuration, platform }
        macros := (m.set "Configuration" configuration).set "Platform" platform }
      { configuration := { name, configurationName := configuration, platform }
        macros := (n.set "Configuration" configuration).set "Platform" platform } :=
    ⟨rfl, (h.set_head configuration).set_head platform⟩
  have hclear := defaultDirectories_clear platform
  have hdirectories := ((hnamed.setOutput hclear.1).setProperty (by decide) hclear.2).eq_of_nil
  exact congrArg
    (fun s => { s with configuration := { s.configuration with attributes := ∅ } }) hdirectories

end Evaluation

section Aligned

variable {m n : MacroTable} (h : Aligned (Format.ownNames .vcxproj) m n) (fs : FileSystem)
  (l : Location) (root : Element)

include h

theorem readProject_eq_of_aligned : readProject fs l m root = readProject fs l n root := by
  have hitem : ∀ name rootNamespace : String,
      evaluateItem fs l.directory (l.setMacros name rootNamespace m) root =
        evaluateItem fs l.directory (l.setMacros name rootNamespace n) root := by
    intro name rootNamespace
    funext item
    rw [evaluateItem, evaluateItem,
      Evaluation.start_eq (l.aligned_setMacros h name rootNamespace)]
  unfold readProject
  simp only [hitem]

theorem AnyOrder.readProject_eq_of_aligned :
    AnyOrder.readProject fs l m root = AnyOrder.readProject fs l n root := by
  have hitem : ∀ name rootNamespace : String,
      AnyOrder.evaluateItem fs l.directory (l.setMacros name rootNamespace m) root =
        AnyOrder.evaluateItem fs l.directory (l.setMacros name rootNamespace n) root := by
    intro name rootNamespace
    funext item
    rw [AnyOrder.evaluateItem, AnyOrder.evaluateItem,
      Evaluation.start_eq (l.aligned_setMacros h name rootNamespace)]
  unfold AnyOrder.readProject
  simp only [hitem]

end Aligned

end MSBuild

theorem VisualStudio.readProject_eq_of_aligned {m n : MacroTable}
    (h : Aligned (Format.ownNames .vcproj) m n) (fs : FileSystem) (l : Location)
    (root : Xml.Element) : readProject fs l m root = readProject fs l n root := by
  have hnames : Aligned (Project.ownNames ++ []) m n := h
  have hset : ∀ name rootNamespace : String,
      l.setMacros name rootNamespace m = l.setMacros name rootNamespace n :=
    fun name rootNamespace => (l.aligned_setMacros hnames name rootNamespace).eq_of_nil
  unfold readProject
  simp only [hset]

namespace Project

def formatOf (source : String) : Format :=
  ((Xml.Element.ofDocument? ((Text.dropLead? "\uFEFF" source).getD source)).map
    Format.ofRoot).getD .unknown

namespace AnyOrder

/-- The projects that a document may be read as in its format; only one of the formats has
conditions. -/
def ofRoot (fs : FileSystem) (l : Location) (seeds : Seeds) (root : Xml.Element) :
    Outcomes Project :=
  match Format.ofRoot root with
  | .vcproj => .only (VisualStudio.readProject fs l (seeds.macros .vcproj) root)
  | .vcxproj => MSBuild.AnyOrder.readProject fs l (seeds.macros .vcxproj) root
  | other => .only (.error (.unsupportedFormat l.path other))

def ofText (fs : FileSystem) (seeds : Seeds) (path source : String) : Outcomes Project :=
  let text := (Text.dropLead? "\uFEFF" source).getD source
  if Text.isAllBlank text then .only (.error (.empty path))
  else if Format.isSolution text then .only (.error (.unsupportedFormat path .solution))
  else
    match Xml.Element.ofDocument? text with
    | none => .only (.error .malformedXml)
    | some root => do
      return warnIfNoFiles (← ofRoot fs (Location.ofPath fs.workingPath path) seeds root)

variable {fs : FileSystem} {seeds : Seeds} {path source : String}

theorem ofText_of_ofRoot {K : (α : Type) → Outcomes α → Except Failure α → Prop}
    (k : Outcomes.Sequential K)
    (h : ∀ root,
      Xml.Element.ofDocument? ((Text.dropLead? "\uFEFF" source).getD source) = some root →
      Format.ofRoot root = .vcxproj → ∀ l, K _ (MSBuild.AnyOrder.readProject fs l
        (seeds.macros .vcxproj) root) (MSBuild.readProject fs l (seeds.macros .vcxproj) root)) :
    K _ (ofText fs seeds path source) (Project.ofText fs seeds path source) := by
  unfold ofText Project.ofText
  dsimp only
  split
  · exact k.only _
  · split
    · exact k.only _
    · cases hd : Xml.Element.ofDocument? ((Text.dropLead? "\uFEFF" source).getD source) with
      | none => exact k.only _
      | some root =>
        refine k.map ?_
        unfold ofRoot Project.ofRoot
        cases hf : Format.ofRoot root with
        | vcxproj => exact h root hd hf _
        | _ => exact k.only _

theorem ofText_yields :
    (ofText fs seeds path source).Yields (Project.ofText fs seeds path source) :=
  ofText_of_ofRoot Outcomes.sequential_yields
    fun _ _ _ l => MSBuild.AnyOrder.readProject_yields _ l _ _

end AnyOrder

variable {s t : Seeds}

theorem ofRoot_eq_of_without (fs : FileSystem) (l : Location) (root : Xml.Element)
    (h : s.without (Format.ofRoot root).ownNames = t.without (Format.ofRoot root).ownNames) :
    ofRoot fs l s root = ofRoot fs l t root ∧
      AnyOrder.ofRoot fs l s root = AnyOrder.ofRoot fs l t root := by
  have haligned := Seeds.aligned_macros (Format.ofRoot root).ownNames_subset h
  unfold ofRoot AnyOrder.ofRoot
  cases hf : Format.ofRoot root with
  | vcproj =>
    rw [hf] at haligned
    have heq := VisualStudio.readProject_eq_of_aligned haligned fs l root
    exact ⟨heq, congrArg Outcomes.only heq⟩
  | vcxproj =>
    rw [hf] at haligned
    exact ⟨MSBuild.readProject_eq_of_aligned haligned fs l root,
      MSBuild.AnyOrder.readProject_eq_of_aligned haligned fs l root⟩
  | _ => exact ⟨rfl, rfl⟩

/-- Seeds for the macros that a project sets for itself do not show in what is read, whether it is
a project or a failure: neither with all conditions meeting the properties in the order of the
macros nor in what else a text may be read as with each condition meeting them in an order of its
own. Of the latter there is nothing if the project and the sheets that can be read ask only for
names that have at most one other spelling among those that are set. -/
theorem own_macros_override (fs : FileSystem) (path source : String)
    (h : s.without (formatOf source).ownNames = t.without (formatOf source).ownNames) :
    ofText fs s path source = ofText fs t path source ∧
    (∀ r, (AnyOrder.ofText fs s path source).Yields r ↔
      (AnyOrder.ofText fs t path source).Yields r) ∧
    (∃ r, (AnyOrder.ofText fs s path source).Yields r) ∧
    ∀ names : List String, (∀ name ∈ msbuildNames, name ∈ names) →
      (∀ path sheet, fs.documentAt? path = some sheet → MSBuild.Clear names sheet) →
      (∀ root, Xml.Element.ofDocument? ((Text.dropLead? "\uFEFF" source).getD source) = some root →
        MSBuild.Clear names root) →
      (s.macros .vcxproj).Within names →
        ∀ r, (AnyOrder.ofText fs s path source).Yields r ↔ r = ofText fs s path source := by
  refine ⟨?_, ?_, ⟨_, AnyOrder.ofText_yields⟩, ?_⟩
  · unfold formatOf at h
    unfold ofText
    simp only
    cases hd : Xml.Element.ofDocument? ((Text.dropLead? "\uFEFF" source).getD source) with
    | none => rfl
    | some root =>
      rw [hd, Option.map_some, Option.getD_some] at h
      simp only [(ofRoot_eq_of_without fs _ root h).1]
  · intro r
    unfold formatOf at h
    unfold AnyOrder.ofText
    simp only
    cases hd : Xml.Element.ofDocument? ((Text.dropLead? "\uFEFF" source).getD source) with
    | none => rfl
    | some root =>
      rw [hd, Option.map_some, Option.getD_some] at h
      simp only [(ofRoot_eq_of_without fs _ root h).2]
  · intro names hstandard hsheets hclear hm r
    rw [AnyOrder.ofText_of_ofRoot Outcomes.sequential_only fun root hd _ l =>
      MSBuild.AnyOrder.readProject_eq_only hstandard hsheets hm l (hclear root hd)]
    exact Outcomes.yields_only_iff

section Seeded

/-- A project that uses a macro of its own and one that is none, and asks for its configuration. -/
def seededSource : String :=
  "<Project ToolsVersion='4.0'><ItemGroup><ProjectConfiguration Include='Debug|Win32'/>" ++
    "</ItemGroup><PropertyGroup Condition=\"'$(configuration)'=='debug'\">" ++
    "<OutDir>$(SolutionDir)$(ProjectName)\\</OutDir></PropertyGroup>" ++
    "<Import Project='$(VCTargetsPath)\\Microsoft.Cpp.targets'/></Project>"

def seededRoot : Xml.Element :=
  { name := "Project"
    attributes := [("ToolsVersion", "4.0")]
    children :=
      [{ name := "ItemGroup"
         children :=
          [{ name := "ProjectConfiguration", attributes := [("Include", "Debug|Win32")] }] },
       { name := "PropertyGroup"
         attributes := [("Condition", "'$(configuration)'=='debug'")]
         children := [{ name := "OutDir", text := "$(SolutionDir)$(ProjectName)\\" }] },
       { name := "Import"
         attributes := [("Project", "$(VCTargetsPath)\\Microsoft.Cpp.targets")] }] }

def ownSeeds : Seeds where
  definitions := [("$(ProjectName)", "Other"), ("SolutionDir", "S\\"), ("Configuration", "Other")]
  assigned := .ofList [("PROJECTDIR", "elsewhere"), ("VCInstallDir", "VC")]

def otherSeeds : Seeds where
  definitions := [("SolutionDir", "S\\"), ("Platform", "x64")]
  assigned := .ofList [("VCInstallDir", "VC")]

theorem toList_seededSource : seededSource.toList =
    "<Project ToolsVersion='4.0'><ItemGroup><ProjectConfiguration Include='Debug|Win32'/>".toList ++
      "</ItemGroup><PropertyGroup Condition=\"'$(configuration)'=='debug'\">".toList ++
      "<OutDir>$(SolutionDir)$(ProjectName)\\</OutDir></PropertyGroup>".toList ++
      "<Import Project='$(VCTargetsPath)\\Microsoft.Cpp.targets'/></Project>".toList := by
  unfold seededSource
  rw [String.toList_append, String.toList_append, String.toList_append]

theorem isDocument_seededSource : IsDocument seededSource seededRoot := by
  refine isDocument_of_rootOf? ?_
  rw [toList_seededSource]
  decide +kernel

theorem clear_seededRoot : MSBuild.Clear (Seeds.vocabulary .vcxproj) seededRoot := by
  refine .of_unconditional rfl (by decide) ?_
  rw [seededRoot, List.forall_mem_cons, List.forall_mem_cons, List.forall_mem_singleton]
  refine ⟨.of_unconditional rfl (by decide) ?_,
    .intro (by decide +kernel) (fun _ => by decide +kernel) ?_,
    .of_unconditional rfl (by decide) (by simp)⟩
  all_goals
    rw [List.forall_mem_singleton]
    exact .of_unconditional rfl (by decide) (by simp)

theorem own_macros_override_seeded :
    ownSeeds.without (formatOf seededSource).ownNames =
        otherSeeds.without (formatOf seededSource).ownNames ∧
      ∃ p, ofText {} ownSeeds "App.vcxproj" seededSource = .ok p ∧
        ofText {} otherSeeds "App.vcxproj" seededSource = .ok p ∧
        (∀ r, (AnyOrder.ofText {} ownSeeds "App.vcxproj" seededSource).Yields r ↔ r = .ok p) ∧
        p.configurations.map Configuration.outputDirectory = ["S\\App\\"] := by
  have hformat : formatOf seededSource = .vcxproj := by
    rw [formatOf, isDocument_seededSource.lead, Option.getD_none, isDocument_seededSource.document]
    decide +kernel
  have hwithout : ownSeeds.without (formatOf seededSource).ownNames =
      otherSeeds.without (formatOf seededSource).ownNames := by
    rw [hformat]
    decide +kernel
  obtain ⟨p, hp, hd⟩ := MSBuild.exists_readProject_of_within 10 {}
    (.ofPath (FileSystem.workingPath {}) "App.vcxproj") (otherSeeds.macros .vcxproj) seededRoot
    (fun p => p.configurations.map Configuration.outputDirectory = ["S\\App\\"])
    (by decide +kernel)
  have hroot : ofRoot {} (.ofPath (FileSystem.workingPath {}) "App.vcxproj") otherSeeds
      seededRoot = .ok p := by
    have hf : Format.ofRoot seededRoot = .vcxproj := by decide +kernel
    rw [ofRoot, hf]
    exact hp
  have hread := isDocument_seededSource.ofText_eq hroot
  obtain ⟨heq, -, -, hone⟩ := own_macros_override {} "App.vcxproj" seededSource hwithout
  rw [heq, hread] at hone
  refine ⟨hwithout, _, heq.trans hread, hread, hone (Seeds.vocabulary .vcxproj) (by decide +kernel)
    MSBuild.clear_documents_empty ?_ (by decide +kernel), ?_⟩
  · intro root h
    rw [isDocument_seededSource.lead, Option.getD_none, isDocument_seededSource.document] at h
    cases h
    exact clear_seededRoot
  · unfold warnIfNoFiles
    split
    · exact of_decide_eq_true hd
    · exact of_decide_eq_true hd

end Seeded

end Project

end StudioMake
