import StudioMake.MacroTable.Vocabulary
import StudioMake.Proofs.MSBuild.Evaluation
import StudioMake.Proofs.Xml.Names

/-!
# What an evaluation keeps in several places

The directories of a configuration stand in a field and in a macro; a property that the project
sets stands among the attributes and in a macro, and two of them in a field of their own as well.
Every assignment keeps the places in step, and so does every evaluation.
-/

set_option autoImplicit false

namespace StudioMake

namespace MacroTable

theorem bare?_of_isName {name : String} (h : Xml.isName name = true) : bare? name = none := by
  unfold bare?
  split
  · next rest hl =>
    rw [Xml.isName, hl] at h
    simp [Xml.startsName, show Xml.isNameStart '$' = false by decide] at h
  · rfl

theorem nameOf_of_isName {name : String} (h : Xml.isName name = true) : nameOf name = name := by
  rw [nameOf, bare?_of_isName h]
  rfl

theorem token_inj {name other : String} (h : Xml.isName name = true)
    (ho : Xml.isName other = true) : token name = token other ↔ name = other := by
  rw [token_eq_iff, nameOf_of_isName h, nameOf_of_isName ho]

theorem get?_set_of_ne {m : MacroTable} {name value other : String}
    (h : Xml.isName name = true) (ho : Xml.isName other = true) (hne : other ≠ name) :
    (m.set name value).get? other = m.get? other := by
  rw [get?_set_of_token_ne value (fun he => hne ((token_inj ho h).1 he))]

end MacroTable

namespace MSBuild

open Xml

/-- The places in which an evaluation keeps one fact agree. -/
structure Evaluation.Consistent (s : Evaluation) : Prop where
  outputDirectory : s.macros.get? "OutDir" = some s.configuration.outputDirectory
  intermediateDirectory : s.macros.get? "IntDir" = some s.configuration.intermediateDirectory
  attributes : ∀ name value, (name, value) ∈ s.configuration.attributes.toList →
    name ≠ "TargetDir" → s.macros.get? name = some value
  type : s.configuration.type =
    ((s.configuration.attributes.find? "ConfigurationType").map .ofMSBuild).getD .unknown
  characterSet : s.configuration.characterSet =
    ((s.configuration.attributes.find? "CharacterSet").map .ofMSBuild).getD .notSet

namespace Evaluation

/-- Consistency, with what makes it last: the attributes bear XML names. -/
structure Sound (s : Evaluation) : Prop extends Consistent s where
  names : ∀ name ∈ s.configuration.attributes.keys, isName name = true

theorem outputDirectory_setProperty (s : Evaluation) (name raw : String) :
    (s.setProperty name raw).configuration.outputDirectory =
      if name = "OutDir" then s.macros.expand (Text.trim raw)
      else s.configuration.outputDirectory := by
  simp only [setProperty, setField]
  grind

theorem intermediateDirectory_setProperty (s : Evaluation) (name raw : String) :
    (s.setProperty name raw).configuration.intermediateDirectory =
      if name = "IntDir" then s.macros.expand (Text.trim raw)
      else s.configuration.intermediateDirectory := by
  simp only [setProperty, setField]
  grind

theorem type_setProperty (s : Evaluation) (name raw : String) :
    (s.setProperty name raw).configuration.type =
      if name = "ConfigurationType" then .ofMSBuild (s.macros.expand (Text.trim raw))
      else s.configuration.type := by
  simp only [setProperty, setField]
  grind

theorem characterSet_setProperty (s : Evaluation) (name raw : String) :
    (s.setProperty name raw).configuration.characterSet =
      if name = "CharacterSet" then .ofMSBuild (s.macros.expand (Text.trim raw))
      else s.configuration.characterSet := by
  simp only [setProperty, setField]
  grind

theorem attributes_setProperty (s : Evaluation) (name raw : String) :
    (s.setProperty name raw).configuration.attributes =
      s.configuration.attributes.insert name (s.macros.expand (Text.trim raw)) := by
  rfl

theorem get?_setProperty (s : Evaluation) {name other : String} (raw : String)
    (h : isName name = true) (ho : isName other = true) (ht : other ≠ "TargetDir") :
    (s.setProperty name raw).macros.get? other =
      if other = name then some (s.macros.expand (Text.trim raw)) else s.macros.get? other := by
  by_cases he : other = name
  · subst he
    simp only [setProperty, MacroTable.get?_set_self, if_true]
  · simp only [setProperty, MacroTable.get?_set_of_ne h ho he, if_neg he]
    split
    · exact MacroTable.get?_set_of_ne (by decide) ho ht
    · rfl

theorem Sound.setProperty {s : Evaluation} (h : s.Sound) {name : String} (raw : String)
    (hn : isName name = true) : (s.setProperty name raw).Sound := by
  constructor
  · constructor
    · rw [get?_setProperty s raw hn (by decide) (by decide), outputDirectory_setProperty,
        h.outputDirectory]
      by_cases ho : name = "OutDir" <;> simp [ho, eq_comm]
    · rw [get?_setProperty s raw hn (by decide) (by decide), intermediateDirectory_setProperty,
        h.intermediateDirectory]
      by_cases hi : name = "IntDir" <;> simp [hi, eq_comm]
    · intro other value hm ht
      rw [attributes_setProperty, OrderedMap.mem_toList_iff, OrderedMap.find?_insert] at hm
      by_cases he : other = name
      · subst he
        rw [if_pos rfl] at hm
        rw [get?_setProperty s raw hn hn ht, if_pos rfl, hm]
      · rw [if_neg he] at hm
        have hold := (OrderedMap.mem_toList_iff _).2 hm
        have ho := h.names other (List.mem_map_of_mem hold)
        rw [get?_setProperty s raw hn ho ht, if_neg he]
        exact h.attributes other value hold ht
    · rw [type_setProperty, attributes_setProperty, OrderedMap.find?_insert, h.type]
      by_cases ht : name = "ConfigurationType" <;> simp [ht, eq_comm]
    · rw [characterSet_setProperty, attributes_setProperty, OrderedMap.find?_insert,
        h.characterSet]
      by_cases hc : name = "CharacterSet" <;> simp [hc, eq_comm]
  · intro other hm
    rw [attributes_setProperty, OrderedMap.keys_insert] at hm
    split at hm
    · exact h.names other hm
    · rcases List.mem_append.1 hm with hm | hm
      · exact h.names other hm
      · rw [List.mem_singleton.1 hm]
        exact hn

theorem Sound.setSetting {s : Evaluation} (h : s.Sound) (tool : String) (setting : Element) :
    (s.setSetting tool setting).Sound :=
  ⟨⟨h.outputDirectory, h.intermediateDirectory, h.attributes, h.type, h.characterSet⟩, h.names⟩

theorem Sound.addSheet {s : Evaluation} (h : s.Sound) (path : NormalPath) :
    (s.addSheet path).Sound :=
  ⟨⟨h.outputDirectory, h.intermediateDirectory, h.attributes, h.type, h.characterSet⟩, h.names⟩

/-- Once both directories are set, the attributes may be forgotten. -/
theorem sound_setDirectories {s : Evaluation} (output intermediate : String)
    (ht : s.configuration.type = .unknown) (hc : s.configuration.characterSet = .notSet) :
    let s' := (s.setProperty "OutDir" output).setProperty "IntDir" intermediate
    Sound { s' with configuration := { s'.configuration with attributes := ∅ } } := by
  intro s'
  constructor
  · constructor
    · show s'.macros.get? "OutDir" = some s'.configuration.outputDirectory
      rw [get?_setProperty _ _ (by decide) (by decide) (by decide),
        get?_setProperty _ _ (by decide) (by decide) (by decide), outputDirectory_setProperty,
        outputDirectory_setProperty]
      rfl
    · show s'.macros.get? "IntDir" = some s'.configuration.intermediateDirectory
      rw [get?_setProperty _ _ (by decide) (by decide) (by decide),
        intermediateDirectory_setProperty]
      rfl
    · intro name value hm
      cases hm
    · show s'.configuration.type = .unknown
      rw [type_setProperty, type_setProperty, ht]
      rfl
    · show s'.configuration.characterSet = .notSet
      rw [characterSet_setProperty, characterSet_setProperty, hc]
      rfl
  · intro name hm
    cases hm

theorem sound_start (name configuration platform : String) (macros : MacroTable) :
    (start name configuration platform macros).Sound :=
  sound_setDirectories _ _ rfl rfl

theorem get?_finish (s : Evaluation) {name : String} (hn : isName name = true)
    (ho : name ≠ "OutDir") (ht : name ≠ "TargetDir") :
    s.finish.macros.get? name = s.macros.get? name := by
  rw [finish, MacroTable.get?_set_of_ne (by decide) hn ht,
    MacroTable.get?_set_of_ne (by decide) hn ho]

theorem get?_finish_output (s : Evaluation) :
    s.finish.macros.get? "OutDir" = some s.configuration.outputDirectory := by
  rw [finish, MacroTable.get?_set_of_ne (by decide) (by decide) (by decide),
    MacroTable.get?_set_self]

theorem get?_finish_target (s : Evaluation) :
    s.finish.macros.get? "TargetDir" =
      some (Path.withTrailingSeparator s.configuration.outputDirectory) := by
  rw [finish, MacroTable.get?_set_self]

theorem Sound.finish {s : Evaluation} (h : s.Sound) : s.finish.Sound := by
  constructor
  · constructor
    · exact s.get?_finish_output
    · rw [s.get?_finish (by decide) (by decide) (by decide)]
      exact h.intermediateDirectory
    · intro name value hm ht
      have hv := h.attributes name value hm ht
      by_cases ho : name = "OutDir"
      · subst ho
        rw [get?_finish_output, ← h.outputDirectory, hv]
      · rw [s.get?_finish (h.names name (List.mem_map_of_mem hm)) ho ht, hv]
    · exact h.type
    · exact h.characterSet
  · exact h.names

theorem kept_sound (fs : FileSystem) : Kept fs Element.Named Sound where
  child _ h := h.child
  document _ _ := FileSystem.named_of_documentAt?
  setProperty _ _ hn _ _ hm h := h.setProperty _ (hn.child _ hm).isName
  setSetting _ _ _ h := h.setSetting _ _
  addSheet _ _ h := h.addSheet _

end Evaluation

/-- The states that an evaluation can reach: from the start, by setting properties with XML names,
setting up tools, following imports and evaluating elements. -/
inductive Reached (fs : FileSystem) : Evaluation → Prop
  | start (name configuration platform : String) (macros : MacroTable) :
      Reached fs (.start name configuration platform macros)
  | setProperty {s : Evaluation} {name : String} (raw : String) (h : Reached fs s)
      (hn : isName name = true) : Reached fs (s.setProperty name raw)
  | applyTool {s s' : Evaluation} {directory : String} {tool : Element} (h : Reached fs s)
      (ha : s.applyTool fs directory tool = .ok s') : Reached fs s'
  | importPath {s : Progress} (path : NormalPath) (h : Reached fs s.evaluation) :
      Reached fs (s.importPath fs path).2.evaluation
  | step {s s' : Progress} {p : Pending} {l : List Pending} (h : Reached fs s.evaluation)
      (hp : p.element.Named) (hs : s.step fs p = .ok (l, s')) : Reached fs s'.evaluation
  | evaluate {s s' : Progress} {pending : List Pending} (h : Reached fs s.evaluation)
      (hp : ∀ p ∈ pending, p.element.Named) (he : evaluate fs pending s = .ok s') :
      Reached fs s'.evaluation

theorem Reached.sound {fs : FileSystem} {s : Evaluation} (h : Reached fs s) : s.Sound := by
  have k := Evaluation.kept_sound fs
  induction h with
  | start name configuration platform macros => exact Evaluation.sound_start _ _ _ _
  | setProperty raw _ hn ih => exact ih.setProperty raw hn
  | applyTool _ ha ih => exact Evaluation.applyTool_keeps k.setSetting ha ih
  | importPath path _ ih => exact k.importPath _ path ih
  | step _ hp hs ih => exact k.step hs hp ih
  | evaluate _ hp he ih => exact k.evaluate he hp ih

/-- In every state that an evaluation can reach, in whatever file system, the places that keep one
fact agree. They still do when the evaluation is finished, and then the directory of the target is
the output directory with a separator at its end. -/
theorem reached_states_consistent {fs : FileSystem} {s : Evaluation} (h : Reached fs s) :
    s.Consistent ∧ s.finish.Consistent ∧
      s.finish.macros.get? "TargetDir" =
        some (Path.withTrailingSeparator s.finish.configuration.outputDirectory) :=
  ⟨h.sound.toConsistent, h.sound.finish.toConsistent, s.get?_finish_target⟩

def resettingProject : Element :=
  { name := "Project"
    children :=
      [{ name := "Import", attributes := [("Project", "shared.props")] },
       { name := "PropertyGroup"
         children :=
          [{ name := "TargetDir", text := "elsewhere" },
           { name := "CharacterSet", text := "Unicode" },
           { name := "OutDir", text := "$(OutDir)\\final" }] }] }

def sharedSheet : FileSystem :=
  ({} : FileSystem).addFile ["work", "shared.props"] (text.toList.map fun c => UInt8.ofNat c.toNat)
where
  text : String :=
    "<P><PropertyGroup><OutDir>x86</OutDir></PropertyGroup></P>"

theorem named_leaf (name text : String) (attributes : List (String × String))
    (h : isName name = true) : Element.Named { name, text, attributes } :=
  .intro h (by simp)

theorem named_resettingProject : ∀ e ∈ resettingProject.children, e.Named := by
  rw [resettingProject, List.forall_mem_cons, List.forall_mem_singleton]
  refine ⟨named_leaf _ _ _ (by decide), .intro (by decide) ?_⟩
  rw [List.forall_mem_cons, List.forall_mem_cons, List.forall_mem_singleton]
  exact ⟨named_leaf _ _ _ (by decide), named_leaf _ _ _ (by decide),
    named_leaf _ _ _ (by decide)⟩

theorem reached_states_consistent_resetting :
    ∃ s, evaluate sharedSheet (Pending.ofElements "/work" resettingProject.children)
        { evaluation := .start "Debug|x64" "Debug" "x64" ⟨∅⟩ } = .ok s ∧
      s.evaluation.configuration.outputDirectory = "x86\\final" ∧
      s.evaluation.configuration.characterSet = .unicode ∧
      s.evaluation.Consistent ∧ s.evaluation.finish.Consistent ∧
      s.evaluation.finish.macros.get? "TargetDir" = some "x86\\final/" := by
  obtain ⟨s, hs, hp⟩ := exists_evaluate_of_within sharedSheet 10
    (Pending.ofElements "/work" resettingProject.children)
    { evaluation := .start "Debug|x64" "Debug" "x64" ⟨∅⟩ }
    (fun s => s.evaluation.configuration.outputDirectory = "x86\\final" &&
      s.evaluation.configuration.characterSet = .unicode) (by decide +kernel)
  obtain ⟨ho, hc⟩ : s.evaluation.configuration.outputDirectory = "x86\\final" ∧
      s.evaluation.configuration.characterSet = .unicode := by simpa using hp
  have hr : Reached sharedSheet s.evaluation :=
    .evaluate (.start _ _ _ _) (fun p hm => named_resettingProject _ (Pending.mem_ofElements hm)) hs
  obtain ⟨h, hf, ht⟩ := reached_states_consistent hr
  refine ⟨s, hs, ho, hc, h, hf, ht.trans ?_⟩
  show some (Path.withTrailingSeparator s.evaluation.configuration.outputDirectory) = _
  rw [ho]
  decide

end MSBuild

end StudioMake
