import StudioMake.Proofs.Makefile.SharedObjects

/-!
# Rules for every source

A source is compiled by the rule for its directory and extension, or by one of its own where its
extension does not tell its language. The texts of these rules tell directories and extensions
apart, so that each source has exactly one rule of the first kind and no such rule stands twice.
-/

set_option autoImplicit false

namespace StudioMake.Makefile

section Texts

variable {objects directory extension other : String}

def compilerFor (extension : String) : String := if extension = "c" then compileC else compileCpp

def patternText (objects directory extension : String) : String :=
  objects ++ "/%.o : " ++ directory ++ "/%." ++ extension ++ "\n\t@echo $<\n\t" ++
    compilerFor extension

def fileText (objects : String) (f : File) : String :=
  objects ++ "/" ++ f.stem ++ ".o : " ++ f.unixPath ++ "\n\t@echo $<\n\t" ++ compileAsC

theorem text_object (target source command : String) :
    (Statement.object target source ["@echo $<", command]).text =
      target ++ " : " ++ source ++ "\n\t@echo $<\n\t" ++ command := by
  simp [Statement.text, Statement.recipeText, ← String.toList_inj]

theorem text_patternRule (objects directory extension : String) :
    (patternRule objects (directory, extension)).text =
      patternText objects directory extension := by
  rw [patternRule, text_object, patternText, compilerFor]
  simp [← String.toList_inj]

theorem text_fileRule (objects : String) (f : File) :
    (fileRule objects f).text = fileText objects f := by
  rw [fileRule, text_object, fileText]
  simp [← String.toList_inj]

def commands : List String := [compileC, compileAsC, compileCpp]

theorem compilerFor_mem (extension : String) : compilerFor extension ∈ commands := by
  unfold compilerFor
  split <;> simp [commands]

theorem command_unique {a b : String} (ha : a ∈ commands) (hb : b ∈ commands) {text : List Char}
    (hat : a.toList <:+ text) (hbt : b.toList <:+ text) : a = b := by
  have hcommands : ∀ a ∈ commands, ∀ b ∈ commands, a.toList <:+ b.toList → a = b := by
    decide +kernel
  rcases List.suffix_or_suffix_of_suffix hat hbt with h | h
  · exact hcommands a ha b hb h
  · exact (hcommands b hb a ha h).symm

theorem suffix_patternText (objects directory extension : String) :
    (compilerFor extension).toList <:+ (patternText objects directory extension).toList := by
  rw [patternText, String.toList_append]
  exact List.suffix_append _ _

theorem suffix_fileText (objects : String) (f : File) :
    compileAsC.toList <:+ (fileText objects f).toList := by
  rw [fileText, String.toList_append]
  exact List.suffix_append _ _

theorem fileText_ne_patternText (objects objects' directory extension : String) (f : File) :
    fileText objects' f ≠ patternText objects directory extension := by
  intro h
  have hcommand : compileAsC = compilerFor extension :=
    command_unique (by simp [commands]) (compilerFor_mem extension) (suffix_fileText objects' f)
      (h ▸ suffix_patternText objects directory extension)
  have hne : compileAsC ≠ compileC ∧ compileAsC ≠ compileCpp := by decide +kernel
  unfold compilerFor at hcommand
  split at hcommand
  · exact hne.1 hcommand
  · exact hne.2 hcommand

theorem cutLast?_patternText (h : '.' ∉ extension.toList) :
    Text.cutLast? '.' (patternText objects directory extension).toList =
      some ((objects ++ "/%.o : " ++ directory ++ "/%").toList,
        (extension ++ "\n\t@echo $<\n\t" ++ compilerFor extension).toList) := by
  have hrecipe : '.' ∉ (extension ++ "\n\t@echo $<\n\t" ++ compilerFor extension).toList := by
    have hcommand : ∀ command ∈ commands, '.' ∉ command.toList := by decide +kernel
    have hc := hcommand _ (compilerFor_mem extension)
    simp [h, hc]
  have htext : (patternText objects directory extension).toList =
      (objects ++ "/%.o : " ++ directory ++ "/%").toList ++
        '.' :: (extension ++ "\n\t@echo $<\n\t" ++ compilerFor extension).toList := by
    simp [patternText]
  rw [htext]
  exact Text.cutLast?_append hrecipe _

theorem patternText_inj {d e d' e' : String} (he : '.' ∉ e.toList) (he' : '.' ∉ e'.toList)
    (h : patternText objects d e = patternText objects d' e') : (d, e) = (d', e') := by
  have hcommand : compilerFor e = compilerFor e' :=
    command_unique (compilerFor_mem e) (compilerFor_mem e') (suffix_patternText objects d e)
      (h ▸ suffix_patternText objects d' e')
  have hcut := congrArg (fun text : String => Text.cutLast? '.' text.toList) h
  simp only [cutLast?_patternText he, cutLast?_patternText he', hcommand, Option.some.injEq,
    Prod.mk.injEq, String.toList_inj] at hcut
  obtain ⟨hd, he⟩ := hcut
  simp only [String.append_assoc, String.append_right_inj, String.append_left_inj] at hd he
  rw [hd, he]

end Texts

section Coverage

variable {objects : String} {sources : List File}

theorem text_objectRules (objects : String) (sources : List File) :
    (objectRules objects sources).map Statement.text =
      (patterns sources).map (fun pattern => patternText objects pattern.1 pattern.2) ++
        (sources.filter needsOwnRule).map (fileText objects) := by
  rw [objectRules, List.map_append, List.map_map, List.map_map]
  congr 1
  · exact List.map_congr_left fun pattern _ => text_patternRule objects pattern.1 pattern.2
  · exact List.map_congr_left fun f _ => text_fileRule objects f

theorem nodup_patterns (sources : List File) : (patterns sources).Nodup := by
  rw [patterns, Text.sortedDistinctPairs, (List.mergeSort_perm _ _).nodup_iff]
  exact nodup_eraseDups ((sources.filter fun f => !needsOwnRule f).filterMap pattern?)

theorem nodup_patternTexts (objects : String) (sources : List File) :
    ((patterns sources).map fun pattern => patternText objects pattern.1 pattern.2).Nodup := by
  have hdot : ∀ pattern ∈ patterns sources, '.' ∉ pattern.2.toList := by
    intro pattern hp
    obtain ⟨f, -, -, he, -⟩ := mem_patterns_iff.1 hp
    exact (name_eq_of_extension? he).2
  refine List.Nodup.map_on (fun a ha b hb h => ?_) (nodup_patterns sources)
  exact patternText_inj (hdot a ha) (hdot b hb) h

theorem count_patternText_le_one (objects objects' directory extension : String)
    (sources : List File) :
    ((objectRules objects' sources).map Statement.text).count
      (patternText objects directory extension) ≤ 1 := by
  have hown : ((sources.filter needsOwnRule).map (fileText objects')).count
      (patternText objects directory extension) = 0 := by
    refine List.count_eq_zero.2 fun hm => ?_
    obtain ⟨f, -, hf⟩ := List.mem_map.1 hm
    exact fileText_ne_patternText objects objects' directory extension f hf
  rw [text_objectRules, List.count_append, hown, Nat.add_zero]
  exact List.nodup_iff_count_le_one.1 (nodup_patternTexts objects' sources) _

/-- The text of the rule that compiles a file with an extension. -/
def ruleText (objects : String) (f : File) (extension : String) : String :=
  if f.compileAsC && !f.isC then fileText objects f
  else patternText objects (directoryPart f.unixPath) extension

theorem mem_ruleTexts_iff (hs : ∀ f ∈ sources, f.extension? ≠ none) {text : String} :
    text ∈ (objectRules objects sources).map Statement.text ↔
      ∃ f ∈ sources, ∃ extension, f.extension? = some extension ∧
        text = ruleText objects f extension := by
  rw [text_objectRules, List.mem_append]
  constructor
  · rintro (h | h)
    · obtain ⟨pattern, hp, rfl⟩ := List.mem_map.1 h
      obtain ⟨f, hf, hn, he, hd⟩ := mem_patterns_iff.1 hp
      refine ⟨f, hf, pattern.2, he, ?_⟩
      rw [ruleText, ← needsOwnRule, if_neg (by simp [hn]), hd]
    · obtain ⟨f, hf, rfl⟩ := List.mem_map.1 h
      obtain ⟨hf, hn⟩ := List.mem_filter.1 hf
      obtain ⟨e, he⟩ := Option.ne_none_iff_exists'.1 (hs f hf)
      exact ⟨f, hf, e, he, by rw [ruleText, ← needsOwnRule, if_pos hn]⟩
  · rintro ⟨f, hf, e, he, rfl⟩
    rw [ruleText, ← needsOwnRule]
    cases hn : needsOwnRule f with
    | true => exact .inr (List.mem_map_of_mem (List.mem_filter.2 ⟨hf, hn⟩))
    | false =>
      have hp : (directoryPart f.unixPath, e) ∈ patterns sources :=
        mem_patterns_iff.2 ⟨f, hf, hn, he, rfl⟩
      rw [if_neg Bool.false_ne_true]
      refine .inl (List.mem_map.2 ⟨_, hp, ?_⟩)
      dsimp only

theorem render_spaced (l : List Statement) :
    render (spaced l) = String.join (l.map fun s => s.text ++ "\n\n") := by
  induction l with
  | nil => rfl
  | cons s l ih =>
    have hs : spaced (s :: l) = s :: .blank :: spaced l := rfl
    rw [hs, render_cons, render_cons, ih, List.map_cons, String.join_cons]
    simp [Statement.text, ← String.toList_inj]

theorem exists_ofProject_eq {p : Project} {c : Configuration} (h : c ∈ p.configurations) :
    ∃ before after, ofProject p = before ++ render (configurationRules p c) ++ after := by
  obtain ⟨l, l', hl⟩ := List.append_of_mem h
  refine ⟨render (globals p ++ toplevel p ++ l.flatMap (configurationRules p)),
    render (l'.flatMap (configurationRules p)), ?_⟩
  rw [ofProject, statements, hl, List.flatMap_append, List.flatMap_cons]
  simp only [render_append, String.append_assoc]

theorem exists_render_eq (c : Configuration) (sources : List File) :
    ∃ before after, render (rulesFor c sources) =
      before ++ String.join ((objectRules (directoryName c.intermediateDirectory) sources).map
        fun s => s.text ++ "\n\n") ++ after := by
  let objects := directoryName c.intermediateDirectory
  let lists := [.heading c.name,
      .assignWords (sourcesVariable c.ruleName) (sources.map File.unixPath), .blank, statsRule c,
      .blank] ++ assignObjects c.ruleName objects ++ [.blank]
  let build := spaced (prebuildRules c sources) ++ buildRules c ++
    [.blank, mainRule c, .blank, cleanRule c, .blank]
  have hparts : rulesFor c sources = lists ++ spaced (objectRules objects sources) ++ build := by
    simp only [rulesFor, lists, build, objects, List.append_assoc]
  exact ⟨render lists, render build, by rw [hparts, render_append, render_append, render_spaced]⟩

end Coverage

section Loaded

variable {fs : FileSystem} {seeds : Seeds} {path source : String} {p : Project}
  {c : Configuration}

/-- The texts of the rules that make the objects of a configuration. -/
def ruleTexts (p : Project) (c : Configuration) : List String :=
  ((configurationRules p c).filter isObjectRule).map Statement.text

theorem ruleTexts_eq (p : Project) (c : Configuration) : ruleTexts p c =
    (objectRules (directoryName c.intermediateDirectory) (p.sourcesOf c)).map Statement.text := by
  rw [ruleTexts, configurationRules, filter_rulesFor]

/-- The rules of a configuration stand in the makefile one after the other. -/
theorem exists_ofProject_eq_ruleTexts (hc : c ∈ p.configurations) : ∃ before after,
    ofProject p = before ++ String.join ((ruleTexts p c).map (· ++ "\n\n")) ++ after := by
  obtain ⟨before, after, hp⟩ := exists_ofProject_eq hc
  obtain ⟨before', after', hr⟩ := exists_render_eq c (p.sourcesOf c)
  refine ⟨before ++ before', after' ++ after, ?_⟩
  rw [hp, configurationRules, hr, ruleTexts_eq, List.map_map]
  simp only [Function.comp_def, String.append_assoc]

/-- Every source of a loaded project is compiled by one of the rules of its configuration: by a rule
of its own if it is compiled as C under another extension, else by the one rule for its directory
and its extension, which together with its stem make its path. No rule is there for anything else,
and no rule for a directory and an extension stands twice. -/
theorem sources_have_rules (h : Project.ofText fs seeds path source = .ok p)
    (hc : c ∈ p.configurations) :
    (∃ before after,
      ofProject p = before ++ String.join ((ruleTexts p c).map (· ++ "\n\n")) ++ after) ∧
    (∀ f ∈ p.sourcesOf c, ∃ extension, f.name = f.stem ++ ("." ++ extension) ∧
      '.' ∉ extension.toList ∧ '/' ∉ f.name.toList ∧
      if f.compileAsC && !f.isC then
        fileText (directoryName c.intermediateDirectory) f ∈ ruleTexts p c
      else
        (ruleTexts p c).count (patternText (directoryName c.intermediateDirectory)
          (directoryPart f.unixPath) extension) = 1 ∧
        directoryPart f.unixPath ++ "/" ++ f.stem ++ ("." ++ extension) =
          if '/' ∈ f.unixPath.toList then f.unixPath else "./" ++ f.unixPath) ∧
    (∀ text ∈ ruleTexts p c, ∃ f ∈ p.sourcesOf c, ∃ extension,
      f.name = f.stem ++ ("." ++ extension) ∧ '.' ∉ extension.toList ∧
      text = if f.compileAsC && !f.isC then fileText (directoryName c.intermediateDirectory) f
        else patternText (directoryName c.intermediateDirectory) (directoryPart f.unixPath)
          extension) ∧
    ∀ objects directory extension,
      (ruleTexts p c).count (patternText objects directory extension) ≤ 1 := by
  have hextension := extension?_sourcesOf p c
  refine ⟨exists_ofProject_eq_ruleTexts hc, fun f hf => ?_, fun text ht => ?_,
    fun objects directory extension => ?_⟩
  · obtain ⟨e, he⟩ := Option.ne_none_iff_exists'.1 (hextension f hf)
    obtain ⟨hname, hdot⟩ := name_eq_of_extension? he
    have hn := isNamed_sourcesOf h c f hf
    have hm : ruleText (directoryName c.intermediateDirectory) f e ∈ ruleTexts p c := by
      rw [ruleTexts_eq, mem_ruleTexts_iff hextension]
      exact ⟨f, hf, e, he, rfl⟩
    refine ⟨e, hname, hdot, hn.slash_notMem, ?_⟩
    rw [ruleText] at hm
    split
    · next hown => rwa [if_pos hown] at hm
    · next hown =>
      rw [if_neg hown] at hm
      refine ⟨Nat.le_antisymm ?_ (List.count_pos_iff.2 hm), ?_⟩
      · rw [ruleTexts_eq]
        exact count_patternText_le_one _ _ _ _ _
      · rw [String.append_assoc, ← hname, ← fileName_unixPath hn, directoryPart_slash]
  · rw [ruleTexts_eq, mem_ruleTexts_iff hextension] at ht
    obtain ⟨f, hf, e, he, rfl⟩ := ht
    obtain ⟨hname, hdot⟩ := name_eq_of_extension? he
    exact ⟨f, hf, e, hname, hdot, rfl⟩
  · rw [ruleTexts_eq]
    exact count_patternText_le_one _ _ _ _ _

def sharedSource : String :=
  "<VisualStudioProject Name='App'><Configurations>" ++
    "<Configuration Name='Debug|Win32' IntermediateDirectory='obj'/></Configurations>" ++
    "<Files><File RelativePath='lib\\a.cpp'/><File RelativePath='lib\\b.cpp'/>" ++
    "<File RelativePath='d.cc'><FileConfiguration Name='Debug|Win32'>" ++
    "<Tool Name='VCCLCompilerTool' CompileAs='1'/></FileConfiguration></File></Files>" ++
    "</VisualStudioProject>"

def sharedConfiguration : Xml.Element :=
  { name := "Configuration"
    attributes := [("Name", "Debug|Win32"), ("IntermediateDirectory", "obj")] }

def sharedRoot : Xml.Element :=
  { name := "VisualStudioProject"
    attributes := [("Name", "App")]
    children :=
      [{ name := "Configurations", children := [sharedConfiguration] },
       { name := "Files"
         children :=
          [{ name := "File", attributes := [("RelativePath", "lib\\a.cpp")] },
           { name := "File", attributes := [("RelativePath", "lib\\b.cpp")] },
           { name := "File"
             attributes := [("RelativePath", "d.cc")]
             children :=
              [{ name := "FileConfiguration"
                 attributes := [("Name", "Debug|Win32")]
                 children :=
                  [{ name := "Tool"
                     attributes := [("Name", "VCCLCompilerTool"), ("CompileAs", "1")] }] }] }] }] }

theorem toList_sharedSource : sharedSource.toList =
    "<VisualStudioProject Name='App'><Configurations>".toList ++
      "<Configuration Name='Debug|Win32' IntermediateDirectory='obj'/></Configurations>".toList ++
      "<Files><File RelativePath='lib\\a.cpp'/><File RelativePath='lib\\b.cpp'/>".toList ++
      "<File RelativePath='d.cc'><FileConfiguration Name='Debug|Win32'>".toList ++
      "<Tool Name='VCCLCompilerTool' CompileAs='1'/></FileConfiguration></File></Files>".toList ++
      "</VisualStudioProject>".toList := by
  unfold sharedSource
  rw [String.toList_append, String.toList_append, String.toList_append, String.toList_append,
    String.toList_append]

theorem exists_shared : ∃ p c f g k, Project.ofText {} {} "App.vcproj" sharedSource = .ok p ∧
    p.configurations = [c] ∧ p.sourcesOf c = [f, g, k] ∧
    directoryName c.intermediateDirectory = "obj" ∧
    (f.unixPath, f.stem, f.compileAsC, f.extension?) = ("lib/a.cpp", "a", false, some "cpp") ∧
    (k.unixPath, k.stem, k.compileAsC, k.extension?) = ("d.cc", "d", true, some "cc") := by
  have hdocument : Project.IsDocument sharedSource sharedRoot := by
    refine Project.isDocument_of_rootOf? ?_
    rw [toList_sharedSource]
    decide +kernel
  have hp : Project.ofRoot {} (Location.ofPath (FileSystem.workingPath {}) "App.vcproj") {}
    sharedRoot = .ok _ := rfl
  have h := hdocument.ofText_eq hp
  refine ⟨_, _, _, _, _, h, rfl, rfl, ?_, by decide +kernel, by decide +kernel⟩
  show directoryName (VisualStudio.readConfiguration {} _ _
    sharedConfiguration).1.intermediateDirectory = _
  rw [(VisualStudio.readConfiguration_of_no_sheets _ _ _ (by decide)).2.2]
  decide +kernel

theorem sources_have_rules_shared : ∃ p c, Project.ofText {} {} "App.vcproj" sharedSource = .ok p ∧
    c ∈ p.configurations ∧
    (ruleTexts p c).count ("obj/%.o : lib/%.cpp\n\t@echo $<\n\t" ++ compileCpp) = 1 ∧
    "obj/d.o : d.cc\n\t@echo $<\n\t" ++ compileAsC ∈ ruleTexts p c := by
  obtain ⟨p, c, f, g, k, hp, hconfigurations, hsources, hobjects, hf, hk⟩ := exists_shared
  have hc : c ∈ p.configurations := by simp [hconfigurations]
  obtain ⟨-, hrules, -, -⟩ := sources_have_rules hp hc
  rw [hobjects] at hrules
  simp only [Prod.mk.injEq] at hf hk
  obtain ⟨hfpath, hfstem, hfc, hfe⟩ := hf
  obtain ⟨hkpath, hkstem, hkc, hke⟩ := hk
  refine ⟨p, c, hp, hc, ?_, ?_⟩
  · obtain ⟨e, hname, hdot, -, hf⟩ := hrules f (by simp [hsources])
    have he : e = "cpp" := by
      rw [(name_eq_of_extension? hfe).1, String.append_right_inj, String.append_right_inj] at hname
      exact hname.symm
    rw [if_neg (by simp [hfc]), hfpath, he] at hf
    exact hf.1
  · obtain ⟨e, -, -, -, hk⟩ := hrules k (by simp [hsources])
    have hown : (k.compileAsC && !k.isC) = true := by
      rw [hkc, File.isC, hke]
      decide
    rw [if_pos hown, fileText, hkpath, hkstem] at hk
    exact hk

end Loaded

end StudioMake.Makefile
