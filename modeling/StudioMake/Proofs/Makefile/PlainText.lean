import StudioMake.Makefile.ProjectRules
import StudioMake.Proofs.Makefile.ObjectNames
import StudioMake.Proofs.Makefile.Recipes

/-!
# Makefiles of plain projects

A project is plain if none of its names, paths and flags breaks a line, and its paths are single
words. Every statement of its makefile is tidy, so the text of the makefile is read as the rules
that it is made of.
-/

set_option autoImplicit false

namespace StudioMake.Makefile

section Lines

variable {a b s : String} {l : List String}

theorem IsLine.append (ha : IsLine a) (hb : IsLine b) : IsLine (a ++ b) := by
  constructor
  · simpa using ⟨ha.newline_notMem, hb.newline_notMem⟩
  · rw [String.toList_append, List.getLast?_append]
    cases h : b.toList.getLast? with
    | none => exact ha.backslash
    | some c =>
      rw [← h]
      simpa [h] using hb.backslash

theorem isLine_join (h : ∀ s ∈ l, IsLine s) : IsLine (String.join l) := by
  induction l with
  | nil => decide
  | cons a l ih =>
    obtain ⟨ha, hl⟩ := List.forall_mem_cons.1 h
    rw [String.join_cons]
    exact ha.append (ih hl)

theorem isLine_words (h : ∀ s ∈ l, IsLine s) : IsLine (Statement.words l) := by
  have hblank : IsLine " " := by decide
  refine isLine_join fun s hs => ?_
  obtain ⟨w, hw, rfl⟩ := List.mem_map.1 hs
  exact hblank.append (h w hw)

theorem isLine_unwords (h : ∀ s ∈ l, IsLine s) : IsLine (unwords l) := by
  induction l with
  | nil => decide
  | cons a l ih =>
    obtain ⟨ha, hl⟩ := List.forall_mem_cons.1 h
    cases l with
    | nil => exact ha
    | cons b l =>
      rw [unwords, String.intercalate_cons_cons]
      exact (ha.append (by decide)).append (ih hl)

def isPathChar (c : Char) : Bool := !isSpace c && c ∉ [':', '\\']

theorem isPathChar_of_isTargetChar {c : Char} (h : Configuration.isTargetChar c = true) :
    isPathChar c = true := by
  have hs := isSpace_of_isTargetChar h
  have hc : c ∉ [':', '\\'] := by
    simp only [List.mem_cons, List.not_mem_nil, or_false]
    rintro (rfl | rfl) <;> cases h
  simp [isPathChar, hs, hc]

namespace Consists

theorem isLine (h : Consists isPathChar s) : IsLine s := by
  have hb := h.notMem (c := '\\') (by decide)
  exact ⟨h.notMem (by decide), fun hl => hb (List.mem_of_getLast? hl)⟩

theorem isWord_path (h : Consists isPathChar s) (hn : s ≠ "") : IsWord s := by
  refine ⟨hn, fun c hc => ?_⟩
  have hp := h c hc
  rw [isPathChar, Bool.and_eq_true] at hp
  simpa using hp.1

theorem isTarget (h : Consists isPathChar s) (hn : s ≠ "") : IsTarget s :=
  ⟨h.isWord_path hn, h.notMem (by decide)⟩

theorem isItem (h : Consists isPathChar s) (hn : s ≠ "") : IsItem s :=
  ⟨h.isWord_path hn, h.notMem (by decide)⟩

theorem path (h : Consists Configuration.isTargetChar s) : Consists isPathChar s :=
  h.mono fun _ => isPathChar_of_isTargetChar

end Consists

end Lines

section Statements

variable {name target source value : String} {prerequisites fixed members recipe : List String}

theorem isLine_reference (h : Consists Configuration.isTargetChar name) :
    IsLine (reference name) :=
  (IsLine.append (by decide) h.path.isLine).append (by decide)

theorem isLine_echo {text : String} (h : IsLine text) : IsLine (echo text) :=
  (IsLine.append (by decide) h).append (by decide)

theorem tidy_assign (hn : IsVariable name) (assignment : Assignment) (hv : IsLine value) :
    (Statement.assign name assignment value).Tidy := by
  have hs : IsLine assignment.symbol := by cases assignment <;> decide
  refine ⟨hn, ((IsLine.append ?_ hs).append (by decide)).append hv⟩
  exact hn.consists.path.isLine.append (by decide)

theorem tidy_assignFor (ht : Consists isPathChar target) (hn : target ≠ "") (hname : IsLine name)
    (hv : IsLine value) : (Statement.assignFor target name value).Tidy :=
  ⟨ht.isTarget hn, (((ht.isLine.append (by decide)).append hname).append (by decide)).append hv⟩

theorem tidy_group (ht : Consists isPathChar target) (hn : target ≠ "")
    (hf : ∀ w ∈ fixed, IsLine w) (hm : ∀ w ∈ members, IsLine w) :
    (Statement.group target fixed members).Tidy :=
  ⟨ht.isTarget hn, (((ht.isLine.append (by decide)).append (isLine_words hf)).append
    (by decide)).append (isLine_unwords hm)⟩

theorem tidy_rule (ht : Consists isPathChar target) (hn : target ≠ "")
    (hp : ∀ w ∈ prerequisites, IsLine w) (hr : ∀ line ∈ recipe, IsLine line) :
    (Statement.rule target prerequisites recipe).Tidy :=
  ⟨ht.isTarget hn, (ht.isLine.append (by decide)).append (isLine_words hp),
    fun line hl => IsLine.append (by decide) (hr line hl)⟩

theorem tidy_object (ht : Consists isPathChar target) (hn : target ≠ "") (hs : IsLine source)
    (hr : ∀ line ∈ recipe, IsLine line) : (Statement.object target source recipe).Tidy :=
  ⟨ht.isTarget hn, (ht.isLine.append (by decide)).append hs,
    fun line hl => IsLine.append (by decide) (hr line hl)⟩

end Statements

section Configurations

/-- A configuration whose rule has a name, and whose names, flags and directories break no line. -/
structure PlainConfiguration (c : Configuration) : Prop where
  ruleName_ne_empty : c.ruleName ≠ ""
  name : IsLine c.name
  values : ∀ entry ∈ currentValues c, IsLine entry.2
  directory : Consists isPathChar (directoryName c.intermediateDirectory)

structure PlainSources (sources : List File) : Prop where
  isNamed : ∀ f ∈ sources, f.IsNamed
  extension_ne_none : ∀ f ∈ sources, f.extension? ≠ none
  path : ∀ f ∈ sources, Consists isPathChar f.unixPath

variable {c : Configuration} {sources : List File}

theorem tidy_statsRule (h : PlainConfiguration c) : (statsRule c).Tidy := by
  have hr := (consists_ruleName c).path
  refine tidy_rule (hr.append (by decide)) (by simp) (by simp) ?_
  refine List.forall_mem_cons.2 ⟨isLine_echo (IsLine.append (by decide) h.name), ?_⟩
  decide +kernel

theorem tidy_assignObjects (h : PlainConfiguration c) :
    ∀ s ∈ assignObjects c.ruleName (directoryName c.intermediateDirectory), s.Tidy := by
  have hr := consists_ruleName c
  have hv := isVariable_objectsVariable hr
  have hd := h.directory.isLine
  have href := isLine_reference (isVariable_sourcesVariable hr).consists
  have hextensions : ∀ e ∈ objectExtensions, IsLine e := by decide
  refine List.forall_mem_cons.2 ⟨⟨hv, by simp⟩, List.forall_mem_map.2 fun extension he => ?_⟩
  have hx := hextensions extension he
  refine tidy_assign hv _ ?_
  have hfilter : IsLine ("$(patsubst %." ++ extension ++ "," ++
      directoryName c.intermediateDirectory ++ "/%.o,$(notdir $(filter %.") :=
    (((IsLine.append (by decide +kernel) hx).append (by decide)).append hd).append
      (by decide +kernel)
  exact (((hfilter.append hx).append (by decide)).append href).append (by decide)

theorem consists_before {p : Char → Bool} {sep : Char} {path : String} (h : Consists p path)
    {other : String} (ho : Consists p other) :
    Consists p (((Text.splitLast? sep path).map Prod.fst).getD other) := by
  unfold Text.splitLast?
  cases hc : Text.cutLast? sep path.toList with
  | none => exact ho
  | some parts =>
    obtain ⟨hpath, -⟩ := Text.eq_of_cutLast? hc
    intro x hx
    refine h x ?_
    rw [hpath]
    exact List.mem_append_left _ (by simpa using hx)

theorem consists_headerOf (hs : PlainSources sources) {f : File} (hf : f ∈ sources) :
    Consists isPathChar (headerOf f) :=
  (consists_before (hs.path f hf) (hs.path f hf)).append (by decide)

theorem PlainSources.consists_name (hs : PlainSources sources) {f : File} (hf : f ∈ sources) :
    Consists isPathChar f.name :=
  Makefile.consists_name (hs.isNamed f hf) (hs.path f hf)

theorem isLine_compile (extension : String) :
    IsLine (if extension = "c" then compileC else compileCpp) := by
  split
  · decide +kernel
  · decide +kernel

theorem tidy_patternRule (h : PlainConfiguration c) (hs : PlainSources sources)
    {pattern : String × String} (hp : pattern ∈ patterns sources) :
    (patternRule (directoryName c.intermediateDirectory) pattern).Tidy := by
  obtain ⟨f, hf, hpattern⟩ := List.mem_filterMap.1 (Text.mem_sortedDistinctPairs.1 hp)
  obtain ⟨extension, he, rfl⟩ := Option.map_eq_some_iff.1 hpattern
  have hm := (List.mem_filter.1 hf).1
  have htarget : Consists isPathChar (directoryName c.intermediateDirectory ++ "/%.o") :=
    h.directory.append (by decide)
  have hextension : Consists isPathChar extension := by
    have hname := hs.consists_name hm
    rw [(name_eq_of_extension? he).1] at hname
    exact (Consists.append_iff.1 (Consists.append_iff.1 hname).2).2
  have hsource : Consists isPathChar (directoryPart f.unixPath ++ "/%." ++ extension) :=
    ((consists_before (hs.path f hm) (by decide)).append (by decide)).append hextension
  have hne : directoryName c.intermediateDirectory ++ "/%.o" ≠ "" := by simp
  have hecho : IsLine "@echo $<" := by decide
  simp only [patternRule]
  exact tidy_object htarget hne hsource.isLine
    (List.forall_mem_cons.2 ⟨hecho, List.forall_mem_singleton.2 (isLine_compile extension)⟩)

theorem tidy_fileRule (h : PlainConfiguration c) (hs : PlainSources sources) {f : File}
    (hf : f ∈ sources) : (fileRule (directoryName c.intermediateDirectory) f).Tidy := by
  have hstem : Consists isPathChar f.stem :=
    fun x hx => hs.consists_name hf x (f.stem_subset_name hx)
  have htarget : Consists isPathChar
      (directoryName c.intermediateDirectory ++ "/" ++ f.stem ++ ".o") :=
    ((h.directory.append (by decide)).append hstem).append (by decide)
  refine tidy_object htarget (by simp) (hs.path f hf).isLine ?_
  decide +kernel

theorem tidy_objectRules (h : PlainConfiguration c) (hs : PlainSources sources) :
    ∀ s ∈ objectRules (directoryName c.intermediateDirectory) sources, s.Tidy :=
  List.forall_mem_append.2 ⟨List.forall_mem_map.2 fun _ hp => tidy_patternRule h hs hp,
    List.forall_mem_map.2 fun _ hf => tidy_fileRule h hs (List.mem_filter.1 hf).1⟩

theorem tidy_prebuildRules (h : PlainConfiguration c) (hs : PlainSources sources) :
    ∀ s ∈ prebuildRules c sources, s.Tidy := by
  have hr := (consists_ruleName c).path
  have hout : IsLine (directoryName c.outputDirectory) := by
    simpa only using h.values ("OUTDIR", directoryName c.outputDirectory) (by simp [currentValues])
  have hheader : ∀ f, sources.find? (·.precompiledHeader) = some f →
      Consists isPathChar (headerOf f) ∧ IsLine f.unixPath := by
    intro f hf
    have hm := List.mem_of_find?_eq_some hf
    exact ⟨consists_headerOf hs hm, (hs.path f hm).isLine⟩
  have htarget : Consists isPathChar (c.ruleName ++ "Prebuild") := hr.append (by decide)
  unfold prebuildRules
  refine List.forall_mem_cons.2 ⟨tidy_rule htarget (by simp) ?_ ?_, ?_⟩
  · intro w hw
    obtain ⟨f, hf, rfl⟩ := Option.map_eq_some_iff.1 (Option.mem_toList.1 hw)
    exact (hheader f hf).1.isLine
  · refine List.forall_mem_cons.2 ⟨IsLine.append (by decide) h.directory.isLine, ?_⟩
    exact List.forall_mem_singleton.2 (IsLine.append (by decide) hout)
  · intro s hm
    obtain ⟨f, hf, rfl⟩ := Option.map_eq_some_iff.1 (Option.mem_toList.1 hm)
    obtain ⟨ht, hpath⟩ := hheader f hf
    have hne : headerOf f ≠ "" := by simp [headerOf]
    have hcommand : IsLine ("$(CXX) $(CPPFLAGS) $(CXXFLAGS) -c " ++ f.unixPath ++ " -o " ++
        headerOf f) :=
      ((IsLine.append (by decide +kernel) hpath).append (by decide)).append ht.isLine
    exact tidy_rule ht hne (by simp) (List.forall_mem_singleton.2 hcommand)

theorem tidy_buildRules (h : PlainConfiguration c) : ∀ s ∈ buildRules c, s.Tidy := by
  have hr := consists_ruleName c
  have ht : Consists isPathChar (buildRuleName c) := hr.path.append (by decide)
  have hn : buildRuleName c ≠ "" := by simp [buildRuleName]
  have hobjects := isLine_reference (isVariable_objectsVariable hr).consists
  have hstats : IsLine (c.ruleName ++ "Stats") := hr.path.isLine.append (by decide)
  refine List.forall_mem_append.2 ⟨List.forall_mem_map.2 fun entry he => ?_, ?_⟩
  · have hname : ∀ name ∈ (currentValues c).map Prod.fst, IsLine name := by
      simp only [currentValues, List.map_cons, List.map_nil]
      decide
    exact tidy_assignFor ht hn (IsLine.append (by decide) (hname _ (List.mem_map_of_mem he)))
      (h.values entry he)
  · have hproduct : ∀ product, product? c.type = some product →
        IsLine product.1 ∧ IsLine product.2 := by
      intro product hp
      cases hc : c.type <;> rw [hc] at hp <;> cases hp <;> decide +kernel
    have hassign : ∀ name value, IsLine name → IsLine value →
        (Statement.assignFor (buildRuleName c) name value).Tidy :=
      fun name value => tidy_assignFor ht hn
    unfold targetRules
    cases hp : product? c.type with
    | none =>
      exact List.forall_mem_singleton.2 (tidy_rule ht hn (List.forall_mem_singleton.2 hstats)
        (by simp))
    | some product =>
      obtain ⟨htarget, hcommand⟩ := hproduct product hp
      refine List.forall_mem_cons.2 ⟨hassign _ _ (by decide) htarget,
        List.forall_mem_cons.2 ⟨hassign _ _ (by decide) hobjects, List.forall_mem_singleton.2 ?_⟩⟩
      exact tidy_rule ht hn (List.forall_mem_cons.2 ⟨hstats, List.forall_mem_singleton.2 hobjects⟩)
        (List.forall_mem_singleton.2 hcommand)

theorem tidy_spaced {l : List Statement} (h : ∀ s ∈ l, s.Tidy) : ∀ s ∈ spaced l, s.Tidy := by
  intro s hs
  obtain ⟨t, ht, hs⟩ := List.mem_flatMap.1 hs
  rcases List.mem_cons.1 hs with rfl | hs
  · exact h s ht
  · rw [List.mem_singleton.1 hs]
    trivial

theorem tidy_rulesFor (h : PlainConfiguration c) (hs : PlainSources sources) :
    ∀ s ∈ rulesFor c sources, s.Tidy := by
  have hr := consists_ruleName c
  have hblank : Statement.blank.Tidy := trivial
  have hheading : (Statement.heading c.name).Tidy := IsLine.append (by decide) h.name
  have hsources : (Statement.assignWords (sourcesVariable c.ruleName)
      (sources.map File.unixPath)).Tidy := by
    refine ⟨isVariable_sourcesVariable hr, List.forall_mem_map.2 fun f hf => ?_⟩
    obtain ⟨extension, he⟩ := Option.ne_none_iff_exists'.1 (hs.extension_ne_none f hf)
    exact (hs.path f hf).isItem (unixPath_ne_empty (hs.isNamed f hf) he)
  have hmain : (mainRule c).Tidy := by
    refine tidy_rule hr.path h.ruleName_ne_empty (List.forall_mem_cons.2 ⟨?_,
      List.forall_mem_singleton.2 ?_⟩) (by simp)
    · exact hr.path.isLine.append (by decide)
    · exact hr.path.isLine.append (by decide)
  have hclean : (cleanRule c).Tidy := by
    have hobjects := isLine_reference (isVariable_objectsVariable hr).consists
    have htarget : Consists isPathChar ("clean." ++ c.ruleName) := .append (by decide) hr.path
    refine tidy_rule htarget (by simp) (by simp) (List.forall_mem_singleton.2 ?_)
    exact IsLine.append (by decide) hobjects
  have hfirst : ∀ s ∈ [Statement.heading c.name,
      .assignWords (sourcesVariable c.ruleName) (sources.map File.unixPath), .blank, statsRule c,
      .blank], s.Tidy := by
    simpa [hblank, hheading, hsources] using tidy_statsRule h
  have hlast : ∀ s ∈ [Statement.blank, mainRule c, .blank, cleanRule c, .blank], s.Tidy := by
    simpa [hblank, hmain] using hclean
  unfold rulesFor
  simp only [List.forall_mem_append]
  exact ⟨⟨⟨⟨⟨⟨hfirst, tidy_assignObjects h⟩, List.forall_mem_singleton.2 hblank⟩,
    tidy_spaced (tidy_objectRules h hs)⟩, tidy_spaced (tidy_prebuildRules h hs)⟩,
    tidy_buildRules h⟩, hlast⟩

end Configurations

section Projects

/-- A project whose makefile is read line by line as it is written. -/
structure PlainText (p : Project) : Prop where
  name : IsLine p.name
  path : IsLine p.path
  directory : IsLine (Path.toUnix p.directory)
  configurations : ∀ c ∈ p.configurations, PlainConfiguration c
  sources : ∀ c ∈ p.configurations, PlainSources (p.sourcesOf c)

variable {p : Project}

theorem tidy_globals (h : PlainText p) : ∀ s ∈ globals p, s.Tidy := by
  have hpath : (Statement.comment ("Generated from " ++ p.path)).Tidy :=
    IsLine.append (by decide) (IsLine.append (by decide) h.path)
  have hflags : IsLine ("--std=gnu++0x $(CURRENT_CXXFLAGS) -I" ++ Path.toUnix p.directory ++
      " -Wall -Wextra") := (IsLine.append (by decide +kernel) h.directory).append (by decide)
  have hcxx := tidy_assign (show IsVariable "CXXFLAGS" by decide) .append hflags
  have hname := tidy_assign (show IsVariable "PROJECT_NAME" by decide) .simple h.name
  have hrest : ∀ s ∈ [Statement.assign "CFLAGS" .append "$(CURRENT_CFLAGS)",
      .assign "CPPFLAGS" .append "$(CURRENT_CPPFLAGS)",
      .assign "LDFLAGS" .append "$(CURRENT_LDFLAGS)",
      .assign "ARFLAGS" .recursive "-rcs $(CURRENT_ARFLAGS)",
      .assign "OUTDIR" .recursive "$(CURRENT_OUTDIR)",
      .assign "INTDIR" .recursive "$(CURRENT_INTDIR)",
      .assign "TARGET" .recursive "$(CURRENT_OUTDIR)/$(CURRENT_TARGET)"], s.Tidy := by
    decide +kernel
  simp only [List.forall_mem_cons] at hrest
  obtain ⟨hc, hcpp, hld, har, hout, hint, htarget, -⟩ := hrest
  unfold globals
  simp only [List.forall_mem_cons]
  exact ⟨hpath, hc, hcpp, hcxx, hld, har, hname, hout, hint, htarget, trivial, by simp⟩

theorem consists_of_mem_generalRules {name : String} (hm : name ∈ generalRules p) :
    Consists Configuration.isTargetChar name ∧ name ≠ "" := by
  rw [generalRules, Text.mem_sortedDistinct, List.mem_filter] at hm
  obtain ⟨hm, hne⟩ := hm
  obtain ⟨c, -, rfl⟩ := List.mem_map.1 hm
  refine ⟨fun x hx => ?_, by simpa using hne⟩
  rw [generalRule, Configuration.targetName, String.toList_ofList] at hx
  exact (List.mem_filter.1 hx).2

theorem isLine_of_mem_specificRules {name : String} (hm : name ∈ specificRules p) :
    IsLine name := by
  obtain ⟨c, -, rfl⟩ := List.mem_map.1 (Text.mem_sortedDistinct.1 hm)
  exact (consists_ruleName c).path.isLine

theorem tidy_defaultRule (p : Project) : (defaultRule p).Tidy := by
  have hnames : ∀ name ∈ generalRules p ++ specificRules p ++ ["all", "clean"], IsLine name := by
    simp only [List.forall_mem_append]
    refine ⟨⟨fun name hm => ?_, fun name hm => isLine_of_mem_specificRules hm⟩, by decide⟩
    exact (consists_of_mem_generalRules hm).1.path.isLine
  refine tidy_rule (by decide) (by decide) (by simp)
    (List.forall_mem_cons.2 ⟨isLine_echo (by decide), List.forall_mem_map.2 fun name hm => ?_⟩)
  exact isLine_echo (IsLine.append (by decide) (hnames name hm))

theorem tidy_toplevel (p : Project) : ∀ s ∈ toplevel p, s.Tidy := by
  have hgeneral : ∀ name ∈ generalRules p, IsLine name :=
    fun name hm => (consists_of_mem_generalRules hm).1.path.isLine
  have hblank : Statement.blank.Tidy := trivial
  have hphony : (Statement.group ".PHONY" ["default", "all", "clean"] (generalRules p)).Tidy :=
    tidy_group (by decide) (by decide) (by decide) hgeneral
  have hall : (Statement.group "all" [] (generalRules p)).Tidy :=
    tidy_group (by decide) (by decide) (by simp) hgeneral
  have hclean : (Statement.rule "clean" [] (p.configurations.map removeObjects)).Tidy := by
    refine tidy_rule (by decide) (by decide) (by simp) (List.forall_mem_map.2 fun c _ => ?_)
    have hr := consists_ruleName c
    exact IsLine.append (by decide) (isLine_reference (isVariable_objectsVariable hr).consists)
  have hmembers : ∀ s ∈ (generalRules p).map (fun general =>
      Statement.group general [] (membersOf p general)), s.Tidy := by
    refine List.forall_mem_map.2 fun general hm => ?_
    obtain ⟨hc, hne⟩ := consists_of_mem_generalRules hm
    refine tidy_group hc.path hne (by simp) (List.forall_mem_map.2 fun c _ => ?_)
    exact (consists_ruleName c).path.isLine
  have hfirst : ∀ s ∈ [defaultRule p, .blank,
      .group ".PHONY" ["default", "all", "clean"] (generalRules p),
      .group "all" [] (generalRules p), .blank,
      .rule "clean" [] (p.configurations.map removeObjects), .blank], s.Tidy := by
    simpa [hblank, hphony, hall, hclean] using tidy_defaultRule p
  unfold toplevel
  simp only [List.forall_mem_append]
  exact ⟨⟨hfirst, hmembers⟩, List.forall_mem_singleton.2 hblank⟩

theorem tidy_statements (h : PlainText p) : ∀ s ∈ statements p, s.Tidy := by
  rw [statements]
  simp only [List.forall_mem_append]
  refine ⟨⟨tidy_globals h, tidy_toplevel p⟩, fun s hs => ?_⟩
  obtain ⟨c, hc, hs⟩ := List.mem_flatMap.1 hs
  exact tidy_rulesFor (h.configurations c hc) (h.sources c hc) s hs

end Projects

end StudioMake.Makefile
