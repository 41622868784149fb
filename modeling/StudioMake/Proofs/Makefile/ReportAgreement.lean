import StudioMake.Proofs.Makefile.RuleCoverage
import StudioMake.Report

/-!
# What reports and makefiles agree on

A report shows the sources of a configuration, each but the last on a line that goes on, and a
makefile assigns them behind a blank on lines of their own. Joined and split into words, both are
the same list. The flags that a makefile sets while a configuration is built are those that reports
show.
-/

set_option autoImplicit false

namespace StudioMake.Makefile

section Joining

variable {a : String}

/-- A text with its lines joined where they end in a backslash, by a blank. -/
def joinContinued (text : String) : String := Text.replaceAll "\\\n" " " text

/-- The list that a text over several lines stands for. -/
def listedWords (text : String) : List String := words (joinContinued text)

theorem toList_joinContinued (text : String) : (joinContinued text).toList =
    Text.replaceFrom ['\\', '\n'] [' '] 0 text.toList := by
  rw [joinContinued, Text.replaceAll, String.toList_ofList]
  rfl

theorem joinContinued_append (h : '\\' ∉ a.toList) (b : String) :
    joinContinued (a ++ b) = a ++ joinContinued b := by
  have hl : ∀ l rest : List Char, '\\' ∉ l →
      Text.replaceFrom ['\\', '\n'] [' '] 0 (l ++ rest) =
        l ++ Text.replaceFrom ['\\', '\n'] [' '] 0 rest := by
    intro l rest hl
    induction l with
    | nil => rfl
    | cons c l ih =>
      rw [List.mem_cons, not_or] at hl
      have hc : ['\\', '\n'].isPrefixOf (c :: (l ++ rest)) = false := by
        simp [List.isPrefixOf, hl.1]
      rw [List.cons_append, Text.replaceFrom, if_neg (by simp [hc]), ih hl.2, List.cons_append]
  rw [← String.toList_inj, toList_joinContinued, String.toList_append, String.toList_append,
    hl _ _ h, toList_joinContinued]

theorem joinContinued_of_no_backslash (h : '\\' ∉ a.toList) : joinContinued a = a := by
  have hempty : joinContinued "" = "" := by decide
  simpa [hempty] using joinContinued_append h ""

theorem joinContinued_continued (b : String) :
    joinContinued ("\\\n" ++ b) = " " ++ joinContinued b := by
  rw [← String.toList_inj, toList_joinContinued, String.toList_append, String.toList_append,
    toList_joinContinued]
  rfl

theorem joinContinued_line (h : '\\' ∉ a.toList) (b : String) :
    joinContinued (" \\\n " ++ a ++ b) = "   " ++ a ++ joinContinued b := by
  have hline : '\\' ∉ (" " ++ a).toList := by simpa using h
  have hlead : " \\\n " ++ a ++ b = " " ++ ("\\\n" ++ (" " ++ a ++ b)) := by
    simp [← String.toList_inj]
  rw [hlead, joinContinued_append (by decide), joinContinued_continued, joinContinued_append hline]
  simp [← String.toList_inj]

theorem words_space_append (b : String) : words (" " ++ b) = words b :=
  words_append_space "" b

variable {paths : List String} (h : ∀ path ∈ paths, '\\' ∉ path.toList)
include h

theorem listedWords_intercalate :
    listedWords ("\\\n".intercalate paths) = paths.flatMap words := by
  induction paths with
  | nil => decide
  | cons path paths ih =>
    obtain ⟨hpath, hpaths⟩ := List.forall_mem_cons.1 h
    cases paths with
    | nil =>
      rw [String.intercalate_singleton, listedWords, joinContinued_of_no_backslash hpath]
      exact (List.append_nil _).symm
    | cons next paths =>
      rw [String.intercalate_cons_cons, listedWords, String.append_assoc,
        joinContinued_append hpath, joinContinued_continued, ← String.append_assoc,
        words_append_space, ← listedWords, ih hpaths]
      rfl

omit h in
theorem words_append_join (a : String) (paths : List String) :
    words (a ++ String.join (paths.map ("   " ++ ·))) = words a ++ paths.flatMap words := by
  induction paths generalizing a with
  | nil => simp
  | cons path paths ih =>
    have hblanks : a ++ String.join ((path :: paths).map ("   " ++ ·)) =
        a ++ " " ++ (" " ++ (" " ++ (path ++ String.join (paths.map ("   " ++ ·))))) := by
      simp [← String.toList_inj]
    rw [hblanks, words_append_space, words_space_append, words_space_append, ih, List.flatMap_cons]

theorem listedWords_join :
    listedWords (String.join (paths.map (" \\\n " ++ ·))) = paths.flatMap words := by
  have hjoin : joinContinued (String.join (paths.map (" \\\n " ++ ·))) =
      String.join (paths.map ("   " ++ ·)) := by
    induction paths with
    | nil => decide
    | cons path paths ih =>
      obtain ⟨hpath, hpaths⟩ := List.forall_mem_cons.1 h
      rw [List.map_cons, List.map_cons, String.join_cons, String.join_cons,
        joinContinued_line hpath, ih hpaths]
  rw [listedWords, hjoin, ← String.empty_append (s := String.join _), words_append_join]
  rfl

end Joining

section Paths

variable {path : String} {sources : List File}

theorem consists_toUnix {p : Char → Bool} (hslash : p '/' = true)
    (h : ∀ c ∈ path.toList, c ≠ '\\' → p c = true) : Consists p (Path.toUnix path) := by
  have hslashes : Consists p (Path.slashes path) := by
    intro c hc
    rw [Path.slashes, String.toList_ofList] at hc
    obtain ⟨x, hx, rfl⟩ := List.mem_map.1 hc
    by_cases hb : x = '\\'
    · rw [if_pos hb]
      exact hslash
    · rw [if_neg hb]
      exact h x hx hb
  unfold Path.toUnix Text.dropLead?
  split
  · intro c hc
    rw [Option.getD_some, String.toList_ofList] at hc
    exact hslashes c (List.mem_of_mem_drop hc)
  · exact hslashes

theorem backslash_notMem_unixPath (sources : List File) :
    ∀ path ∈ sources.map File.unixPath, '\\' ∉ path.toList := by
  intro path hp
  obtain ⟨f, -, rfl⟩ := List.mem_map.1 hp
  have hconsists : Consists (· ≠ '\\') f.unixPath :=
    consists_toUnix (by decide) fun c _ hc => decide_eq_true hc
  exact hconsists.notMem (by decide)

theorem words_unixPath {f : File} (h : Consists (!isSpace ·) f.relativePath) :
    words f.unixPath = if f.unixPath = "" then [] else [f.unixPath] := by
  have hconsists : Consists (!isSpace ·) f.unixPath :=
    consists_toUnix (by decide) fun c hc _ => h c hc
  split
  · next he =>
    rw [he]
    decide
  · next hne => exact IsWord.words_eq ⟨hne, fun c hc => by simpa using hconsists c hc⟩

theorem flatMap_words_unixPath (h : ∀ f ∈ sources, Consists (!isSpace ·) f.relativePath) :
    (sources.map File.unixPath).flatMap words = (sources.map File.unixPath).filter (· ≠ "") := by
  induction sources with
  | nil => rfl
  | cons f sources ih =>
    obtain ⟨hf, hsources⟩ := List.forall_mem_cons.1 h
    rw [List.map_cons, List.flatMap_cons, List.filter_cons, ih hsources, words_unixPath hf]
    by_cases he : f.unixPath = "" <;> simp [he]

end Paths

section Reports

variable {p : Project} {c : Configuration}

/-- What a report shows of a configuration that is asked for by its name, for one field without a
label. -/
def reported (p : Project) (c : Configuration) (field : Report.Field) : Except Failure String :=
  Report.text p (({ target := .configuration c.name } : Report.Request).add field "")

theorem expandLabel_empty (p : Project) (c : Configuration) : Report.expandLabel p c "" = "" := by
  have hempty : ∀ pattern value : String, Text.replaceAll pattern value "" = "" := fun _ _ => rfl
  simp only [Report.expandLabel, List.foldl_cons, List.foldl_nil, hempty]

theorem reported_eq (h : p.configuration? c.name = some c) {field : Report.Field}
    (hf : field ≠ .configurations) :
    reported p c field = .ok (Report.fieldText p c field ++ "\n") := by
  let r : Report.Request := ({ target := .configuration c.name } : Report.Request).add field ""
  have hfields : r.fields = [(field, "")] := rfl
  have hneeds : r.needsConfiguration = true := by
    simp [Report.Request.needsConfiguration, hfields, hf]
  have hnames : Report.names p r = "" := by
    have hlines : ∀ c : Configuration, Report.lines p [] c = "" := fun _ => rfl
    have hjoin : ∀ l : List Configuration, String.join (l.map fun _ => "") = "" := by
      intro l
      induction l with
      | nil => rfl
      | cons c l ih => rw [List.map_cons, String.join_cons, ih, String.append_empty]
    rw [Report.names, hfields, List.filter_cons_of_neg (by simp [hf]), List.filter_nil]
    exact hjoin p.configurations
  have hdetails : Report.details p r c = Report.fieldText p c field ++ "\n" := by
    rw [Report.details, hfields, List.filter_cons_of_pos (by simp [hf]), List.filter_nil,
      Report.lines, List.map_singleton, expandLabel_empty]
    simp
  have htarget : r.target = .configuration c.name := rfl
  have htext : Report.text p r = .ok (Report.names p r ++ Report.details p r c) := by
    unfold Report.text
    rw [if_pos hneeds, htarget]
    simp only [h]
  rw [reported, htext, hnames, hdetails, String.empty_append]

end Reports

section Assignments

variable {c : Configuration}

def assignsList (name : String) : Statement → Bool
  | .assignWords other _ => other = name
  | _ => false

def assignsFor (target name : String) : Statement → Bool
  | .assignFor t other _ => t = target && other = name
  | _ => false

def textsOf (p : Project) (c : Configuration) (q : Statement → Bool) : List String :=
  ((configurationRules p c).filter q).map Statement.text

theorem filter_assignments {q : Statement → Bool} (hblank : q .blank = false)
    (hheading : ∀ text, q (.heading text) = false)
    (hassign : ∀ name assignment value, q (.assign name assignment value) = false)
    (hrule : ∀ target prerequisites recipe, q (.rule target prerequisites recipe) = false)
    (hobject : ∀ target source recipe, q (.object target source recipe) = false)
    (p : Project) (c : Configuration) : (configurationRules p c).filter q =
      [.assignWords (c.ruleName ++ "_SRCS") ((p.sourcesOf c).map File.unixPath),
        .assignWords (c.ruleName ++ "_OBJS") []].filter q ++ (buildRules c).filter q := by
  have hobjects : (objectRules (directoryName c.intermediateDirectory) (p.sourcesOf c)).filter q =
      [] := by
    refine filter_eq_nil fun s hs => ?_
    obtain ⟨target, source, recipe, rfl⟩ := exists_object_of_mem hs
    exact hobject target source recipe
  have hprebuild : (prebuildRules c (p.sourcesOf c)).filter q = [] := by
    refine filter_eq_nil fun s hs => ?_
    obtain ⟨target, prerequisites, recipe, rfl⟩ := exists_rule_of_mem hs
    exact hrule target prerequisites recipe
  have hlists : (assignObjects c.ruleName (directoryName c.intermediateDirectory)).filter q =
      [.assignWords (c.ruleName ++ "_OBJS") []].filter q := by
    simp [assignObjects, objectExtensions, List.filter_cons, hassign, objectsVariable]
  rw [configurationRules, filter_parts hblank, hobjects, hprebuild, hlists]
  simp only [List.filter_cons, List.filter_nil, statsRule, mainRule, cleanRule, sourcesVariable,
    hheading, hrule, Bool.false_eq_true, if_false, List.append_nil]
  split <;> rfl

theorem textsOf_sources (p : Project) (c : Configuration) :
    textsOf p c (assignsList (c.ruleName ++ "_SRCS")) = [c.ruleName ++ "_SRCS :=" ++
      String.join (((p.sourcesOf c).map File.unixPath).map (" \\\n " ++ ·))] := by
  have hobjects : ¬ c.ruleName ++ "_OBJS" = c.ruleName ++ "_SRCS" := by
    rw [String.append_right_inj]
    decide
  have hbuild : (buildRules c).filter (assignsList (c.ruleName ++ "_SRCS")) = [] := by
    refine filter_eq_nil fun s hs => ?_
    obtain ⟨target, name, value, rfl⟩ | ⟨target, prerequisites, recipe, rfl⟩ := cases_of_mem hs
    · rfl
    · rfl
  have hsources : [.assignWords (c.ruleName ++ "_SRCS") ((p.sourcesOf c).map File.unixPath),
      .assignWords (c.ruleName ++ "_OBJS") []].filter (assignsList (c.ruleName ++ "_SRCS")) =
      [.assignWords (c.ruleName ++ "_SRCS") ((p.sourcesOf c).map File.unixPath)] := by
    simp [assignsList, hobjects]
  rw [textsOf, filter_assignments rfl (fun _ => rfl) (fun _ _ _ => rfl) (fun _ _ _ => rfl)
    (fun _ _ _ => rfl), hbuild, hsources]
  simp [Statement.text, ← String.toList_inj]

/-- The texts that set a value while a configuration is built. -/
def currentTexts (p : Project) (c : Configuration) (name : String) : List String :=
  textsOf p c (assignsFor (c.ruleName ++ "Build") ("CURRENT_" ++ name))

def currentText (c : Configuration) (name value : String) : String :=
  c.ruleName ++ "Build:CURRENT_" ++ name ++ " := " ++ value

theorem currentTexts_eq {name value : String} (hn : name ≠ "TARGET")
    (h : (currentValues c).filter (·.1 = name) = [(name, value)]) (p : Project) :
    currentTexts p c name = [currentText c name value] := by
  have htarget : (targetRules c).filter
      (assignsFor (c.ruleName ++ "Build") ("CURRENT_" ++ name)) = [] := by
    have htarget : ¬ "CURRENT_TARGET" = "CURRENT_" ++ name := by
      have hlead : "CURRENT_TARGET" = "CURRENT_" ++ "TARGET" := by decide
      rw [hlead, String.append_right_inj]
      exact hn.symm
    have hobjects : ¬ "OBJS" = "CURRENT_" ++ name := by
      rw [← String.toList_inj, String.toList_append]
      simp
    unfold targetRules
    cases product? c.type with
    | none => rfl
    | some product => simp [assignsFor, htarget, hobjects]
  have hvalues : ((currentValues c).map fun entry =>
      Statement.assignFor (buildRuleName c) ("CURRENT_" ++ entry.1) entry.2).filter
        (assignsFor (c.ruleName ++ "Build") ("CURRENT_" ++ name)) =
      [.assignFor (c.ruleName ++ "Build") ("CURRENT_" ++ name) value] := by
    have hentry : (assignsFor (c.ruleName ++ "Build") ("CURRENT_" ++ name) ∘ fun entry =>
        Statement.assignFor (buildRuleName c) ("CURRENT_" ++ entry.1) entry.2) =
        fun entry : String × String => decide (entry.1 = name) := by
      funext entry
      simp [assignsFor, buildRuleName]
    rw [List.filter_map, hentry, h]
    rfl
  rw [currentTexts, textsOf, filter_assignments rfl (fun _ => rfl) (fun _ _ _ => rfl)
    (fun _ _ _ => rfl) (fun _ _ _ => rfl), buildRules, List.filter_append, hvalues, htarget]
  simp [assignsFor, Statement.text, currentText, ← String.toList_inj]

end Assignments

section Agreement

variable {p : Project} {c : Configuration}

def blankBetween (a b : String) : String := if a = "" ∨ b = "" then "" else " "

theorem joinFlags_eq (a b : String) : joinFlags a b = a ++ blankBetween a b ++ b := by
  unfold joinFlags blankBetween
  by_cases ha : a = ""
  · simp [ha]
  · by_cases hb : b = "" <;> simp [ha, hb]

theorem mem_of_configuration? (h : p.configuration? c.name = some c) : c ∈ p.configurations :=
  List.mem_of_find?_eq_some h

/-- A report of the sources of a configuration and the list that a makefile assigns stand for the
same words. Where paths hold no blanks these are the paths of the sources, but for empty ones; there
are none if files are named after their paths, as in a project that is read. What a makefile sets
while it builds the configuration are the flags that reports show. The configuration is the first
one of its name, for reports ask by names. -/
theorem reports_agree_with_makefile (h : p.configuration? c.name = some c) :
    (∃ before after, ofProject p = before ++ render (configurationRules p c) ++ after) ∧
    (∃ shown listed, reported p c .sources = .ok (shown ++ "\n") ∧
      textsOf p c (assignsList (c.ruleName ++ "_SRCS")) = [c.ruleName ++ "_SRCS :=" ++ listed] ∧
      listedWords listed = listedWords shown ∧
      ((∀ f ∈ p.sourcesOf c, Consists (!isSpace ·) f.relativePath) →
        listedWords shown = ((p.sourcesOf c).map File.unixPath).filter (· ≠ "") ∧
        ((∀ f ∈ p.sourcesOf c, f.IsNamed) →
          listedWords shown = (p.sourcesOf c).map File.unixPath) ∧
        ∀ fs seeds path source, Project.ofText fs seeds path source = .ok p →
          listedWords shown = (p.sourcesOf c).map File.unixPath)) ∧
    ∃ forced included defined directories libraries,
      reported p c .forcedIncludes = .ok (forced ++ "\n") ∧
      reported p c .includeDirectories = .ok (included ++ "\n") ∧
      reported p c .defines = .ok (defined ++ "\n") ∧
      reported p c .libraryDirectories = .ok (directories ++ "\n") ∧
      reported p c .libraries = .ok (libraries ++ "\n") ∧
      currentTexts p c "CPPFLAGS" = [currentText c "CPPFLAGS" defined] ∧
      currentTexts p c "CFLAGS" = [currentText c "CFLAGS" included] ∧
      currentTexts p c "CXXFLAGS" =
        [currentText c "CXXFLAGS" (forced ++ blankBetween forced included ++ included)] ∧
      currentTexts p c "LDFLAGS" =
        [currentText c "LDFLAGS"
          (directories ++ blankBetween directories libraries ++ libraries)] := by
  have hpaths := backslash_notMem_unixPath (p.sourcesOf c)
  refine ⟨exists_ofProject_eq (mem_of_configuration? h), ?_, ?_⟩
  · refine ⟨_, _, reported_eq h (by decide), textsOf_sources p c, ?_, fun hblank => ?_⟩
    · rw [listedWords_join hpaths, Report.fieldText, Report.sourceLines,
        listedWords_intercalate hpaths]
    · have hwords : listedWords (Report.fieldText p c .sources) =
          ((p.sourcesOf c).map File.unixPath).filter (· ≠ "") := by
        rw [Report.fieldText, Report.sourceLines, listedWords_intercalate hpaths,
          flatMap_words_unixPath hblank]
      have hlist : (∀ f ∈ p.sourcesOf c, f.IsNamed) →
          listedWords (Report.fieldText p c .sources) = (p.sourcesOf c).map File.unixPath := by
        intro hnamed
        rw [hwords]
        refine List.filter_eq_self.2 fun path hm => decide_eq_true ?_
        obtain ⟨f, hf, rfl⟩ := List.mem_map.1 hm
        obtain ⟨e, he⟩ := Option.ne_none_iff_exists'.1 (extension?_sourcesOf p c f hf)
        exact unixPath_ne_empty (hnamed f hf) he
      exact ⟨hwords, hlist, fun _ _ _ _ hp => hlist (isNamed_sourcesOf hp c)⟩
  · refine ⟨_, _, _, _, _, reported_eq h (by decide), reported_eq h (by decide),
      reported_eq h (by decide), reported_eq h (by decide), reported_eq h (by decide), ?_, ?_, ?_,
      ?_⟩
    · exact currentTexts_eq (by decide) rfl p
    · exact currentTexts_eq (by decide) rfl p
    · exact currentTexts_eq (by decide) (by rw [← joinFlags_eq]; rfl) p
    · exact currentTexts_eq (by decide) (by rw [← joinFlags_eq]; rfl) p

def flaggedConfiguration : Configuration :=
  { Configuration.ofName "Debug|Win32" with
    files := [0, 1]
    tools :=
      (((∅ : Tools).setSetting Tool.compiler "AdditionalIncludeDirectories" "inc;.\\src").setSetting
        Tool.compiler "ForcedIncludeFiles" "pre.h").setSetting
          Tool.linker "AdditionalDependencies" "z.lib" }

def flaggedProject : Project :=
  { name := "App"
    configurations := [flaggedConfiguration]
    files :=
      [{ relativePath := ".\\src\\a.c", name := "a.c" },
       { relativePath := "b.cpp", name := "b.cpp" }] }

theorem reports_agree_with_makefile_flagged :
    flaggedProject.configuration? flaggedConfiguration.name = some flaggedConfiguration ∧
    (∃ shown listed,
      reported flaggedProject flaggedConfiguration .sources = .ok (shown ++ "\n") ∧
      textsOf flaggedProject flaggedConfiguration (assignsList "DebugWin32_SRCS") =
        ["DebugWin32_SRCS :=" ++ listed] ∧
      listedWords shown = ["src/a.c", "b.cpp"] ∧ listedWords listed = ["src/a.c", "b.cpp"]) ∧
    currentTexts flaggedProject flaggedConfiguration "CXXFLAGS" =
      ["DebugWin32Build:CURRENT_CXXFLAGS := -include pre.h -Iinc -Isrc"] ∧
    currentTexts flaggedProject flaggedConfiguration "LDFLAGS" =
      ["DebugWin32Build:CURRENT_LDFLAGS := -lz"] := by
  have h : flaggedProject.configuration? flaggedConfiguration.name = some flaggedConfiguration := by
    decide +kernel
  have hsources : flaggedProject.sourcesOf flaggedConfiguration = flaggedProject.files := by
    decide +kernel
  have hrule : flaggedConfiguration.ruleName = "DebugWin32" := by decide +kernel
  obtain ⟨-, ⟨shown, listed, hshown, htexts, heq, hwords⟩, forced, included, defined, directories,
    libraries, hforced, hincluded, -, hdirectories, hlibraries, -, -, hcompile, hlink⟩ :=
    reports_agree_with_makefile h
  have hvalue : ∀ {field : Report.Field} {text : String} (value : String), field ≠ .configurations →
      reported flaggedProject flaggedConfiguration field = .ok (text ++ "\n") →
      Report.fieldText flaggedProject flaggedConfiguration field = value → text = value := by
    intro field text value hf ht hv
    rw [reported_eq h hf, hv, Except.ok.injEq, String.append_left_inj] at ht
    exact ht.symm
  rw [hvalue "-include pre.h" (by decide) hforced (by decide +kernel),
    hvalue "-Iinc -Isrc" (by decide) hincluded (by decide +kernel)] at hcompile
  rw [hvalue "" (by decide) hdirectories (by decide +kernel),
    hvalue "-lz" (by decide) hlibraries (by decide +kernel)] at hlink
  rw [hsources] at hwords
  rw [hrule] at htexts
  have hlist : listedWords shown = ["src/a.c", "b.cpp"] :=
    ((hwords (by decide +kernel)).2.1 (by decide +kernel)).trans (by decide +kernel)
  refine ⟨h, ⟨shown, listed, hshown, htexts, hlist, heq.trans hlist⟩, ?_, ?_⟩
  · rw [hcompile, currentText, hrule]
    decide
  · rw [hlink, currentText, hrule]
    decide

def pathlessConfiguration : Configuration :=
  { Configuration.ofName "Debug|Win32" with files := [0] }

/-- A project with a source that has a name but no path. -/
def pathlessProject : Project :=
  { name := "App"
    configurations := [pathlessConfiguration]
    files := [{ relativePath := "", name := "a.c" }] }

/-- The source is there, but its empty path is no word of the report. -/
theorem reports_drop_empty_paths :
    pathlessProject.configuration? pathlessConfiguration.name = some pathlessConfiguration ∧
    (∀ i ∈ pathlessConfiguration.files, i < pathlessProject.files.length) ∧
    (∀ f ∈ pathlessProject.sourcesOf pathlessConfiguration,
      Consists (!isSpace ·) f.relativePath) ∧
    ∃ shown, reported pathlessProject pathlessConfiguration .sources = .ok (shown ++ "\n") ∧
      listedWords shown = [] ∧
      (pathlessProject.sourcesOf pathlessConfiguration).map File.unixPath = [""] := by
  have h : pathlessProject.configuration? pathlessConfiguration.name =
      some pathlessConfiguration := by decide +kernel
  refine ⟨h, by decide, by decide +kernel, "", ?_, by decide, by decide +kernel⟩
  rw [reported_eq h (by decide)]
  decide +kernel

end Agreement

end StudioMake.Makefile
