import StudioMake.Makefile.ProjectRules
import StudioMake.Proofs.Makefile.ObjectNames
import StudioMake.Proofs.Project.SourceText
import StudioMake.Proofs.VisualStudio.DirectoryMacros

/-!
# The objects that are linked

A makefile lists the sources of a configuration and, in terms of that list, its objects. Reading
these lines as GNU make does gives back the paths of the sources, and for each of the extensions
that are linked the objects of the sources with that extension. Sources may have other extensions:
their objects are linked only where a source with the same stem has one of these.
-/

set_option autoImplicit false

namespace StudioMake.Makefile

section Listing

variable {v : OrderedMap String} {rule directory : String} {sources : List File}

theorem exists_objectNames_eq (rule directory extension : String) :
    ∃ inner, objectNames rule directory extension = "$" ++ inner ++ ")" := by
  rw [objectNames_eq]
  exact exists_callText_eq _ _

theorem unquoted_objectNames (hr : Consists Configuration.isTargetChar rule)
    (hd : Consists isPlain directory) {extension : String} (he : Consists isPlain extension) :
    Consists isUnquoted (objectNames rule directory extension) := by
  have hr : Consists isUnquoted rule := hr.unquoted (by decide)
  have hd : Consists isUnquoted directory := hd.unquoted (by decide)
  have he : Consists isUnquoted extension := he.unquoted (by decide)
  unfold objectNames reference sourcesVariable
  simp only [Consists.append_iff]
  and_intros <;> first | assumption | decide

theorem solid_objectNames (hr : Consists Configuration.isTargetChar rule)
    (hd : Consists isPlain directory) {extension : String} (he : Consists isPlain extension) :
    Solid (objectNames rule directory extension).toList := by
  refine ⟨fun hm => ?_, ')', ?_, by decide, by decide⟩
  · exact absurd (unquoted_objectNames hr hd he _ hm) (by decide)
  · obtain ⟨inner, h⟩ := exists_objectNames_eq rule directory extension
    rw [h, String.toList_append]
    exact List.getLast?_concat

theorem trimStart_objectNames (rule directory extension : String) :
    trimStart (objectNames rule directory extension) = objectNames rule directory extension := by
  obtain ⟨inner, h⟩ := exists_objectNames_eq rule directory extension
  rw [h]
  simp [trimStart, isSpace, String.append_assoc]

theorem sourcesVariable_ne_objectsVariable (a b : String) :
    sourcesVariable a ≠ objectsVariable b := by
  intro h
  have hs := congrArg (fun s => s.toList.reverse[1]?) h
  simp [sourcesVariable, objectsVariable] at hs

theorem readFrom_objects (hr : Consists Configuration.isTargetChar rule)
    (hd : Consists isPlain directory) (hs : Readable sources) {extensions : List String}
    (he : ∀ e ∈ extensions, Consists isPlain e ∧ '.' ∉ e.toList)
    (hv : listOf v (sourcesVariable rule) = sources.map File.unixPath) {old : String}
    (ho : v.find? (objectsVariable rule) = some old) :
    ∃ v', (∀ rest, readFrom v (render (extensions.map (fun e =>
        .assign (objectsVariable rule) .append (objectNames rule directory e)) ++ rest)) =
          readFrom v' (render rest)) ∧
      listOf v' (objectsVariable rule) = words old ++
        extensions.flatMap (fun e => (withExtension sources e).map (objectOf directory)) ∧
      ∀ name, name ≠ objectsVariable rule → v'.find? name = v.find? name := by
  induction extensions generalizing v old with
  | nil => exact ⟨v, fun _ => rfl, by simp [listOf, valueOf, ho], fun _ _ => rfl⟩
  | cons e extensions ih =>
    obtain ⟨hplain, hdot⟩ := he e List.mem_cons_self
    let objects := (withExtension sources e).map (objectOf directory)
    have hx : expand v (trimStart (objectNames rule directory e)) = some (unwords objects) := by
      rw [trimStart_objectNames]
      exact (expands_objectNames hr hd hs hv hplain.literal hdot).expand_eq
    have hstep := readFrom_append (isVariable_objectsVariable hr) (solid_objectNames hr hd hplain)
      (unquoted_objectNames hr hd hplain) ho hx
    have hv₁ : listOf (v.insert (objectsVariable rule) (appendText old (unwords objects)))
        (sourcesVariable rule) = sources.map File.unixPath := by
      rw [listOf, valueOf, OrderedMap.find?_insert,
        if_neg (sourcesVariable_ne_objectsVariable rule rule)]
      exact hv
    obtain ⟨v', hread, hobjects, hkept⟩ := ih (fun x hx => he x (List.mem_cons_of_mem e hx)) hv₁
      ((OrderedMap.find?_insert _ _ _ _).trans (if_pos rfl))
    refine ⟨v', fun rest => ?_, ?_, fun name hne => ?_⟩
    · rw [List.map_cons, List.cons_append, hstep, hread]
    · rw [hobjects, words_appendText, words_unwords (hs.isWord_objects hd e), List.flatMap_cons,
        List.append_assoc]
    · rw [hkept name hne, OrderedMap.find?_insert, if_neg hne]

/-- The variables of a rule hold its sources and, extension by extension, their objects. -/
structure Lists (v : OrderedMap String) (rule directory : String) (sources : List File) : Prop where
  sources_eq : listOf v (sourcesVariable rule) = sources.map File.unixPath
  objects_eq : listOf v (objectsVariable rule) =
    objectExtensions.flatMap fun e => (withExtension sources e).map (objectOf directory)

theorem Lists.congr {v v' : OrderedMap String} (h : Lists v rule directory sources)
    (hs : v'.find? (sourcesVariable rule) = v.find? (sourcesVariable rule))
    (ho : v'.find? (objectsVariable rule) = v.find? (objectsVariable rule)) :
    Lists v' rule directory sources := by
  constructor
  · rw [listOf, valueOf, hs]
    exact h.sources_eq
  · rw [listOf, valueOf, ho]
    exact h.objects_eq

def listing (rule directory : String) (sources : List File) : List Statement :=
  .assignWords (sourcesVariable rule) (sources.map File.unixPath) :: assignObjects rule directory

theorem sourcesVariable_inj {a b : String} (h : sourcesVariable a = sourcesVariable b) : a = b := by
  simpa [sourcesVariable, ← String.toList_inj] using h

theorem objectsVariable_inj {a b : String} (h : objectsVariable a = objectsVariable b) : a = b := by
  simpa [objectsVariable, ← String.toList_inj] using h

theorem readFrom_listing (hr : Consists Configuration.isTargetChar rule)
    (hd : Consists isPlain directory) (hs : Readable sources) (v : OrderedMap String) :
    ∃ v', (∀ rest, readFrom v (render (listing rule directory sources ++ rest)) =
        readFrom v' (render rest)) ∧
      Lists v' rule directory sources ∧
      ∀ name, name ≠ sourcesVariable rule → name ≠ objectsVariable rule →
        v'.find? name = v.find? name := by
  have he : ∀ e ∈ objectExtensions, Consists isPlain e ∧ '.' ∉ e.toList := by decide
  have hw : ∀ w ∈ sources.map File.unixPath, w ≠ "" ∧ Consists isPlain w := by
    intro w hw
    obtain ⟨f, hf, rfl⟩ := List.mem_map.1 hw
    exact ⟨(hs.isWord_unixPath hf).ne_empty, hs.plain f hf⟩
  let paths := unwords (sources.map File.unixPath)
  let v₁ := (v.insert (sourcesVariable rule) paths).insert (objectsVariable rule) ""
  have hne := sourcesVariable_ne_objectsVariable rule rule
  have hsources : v₁.find? (sourcesVariable rule) = some paths := by
    rw [OrderedMap.find?_insert, if_neg hne, OrderedMap.find?_insert, if_pos rfl]
  have hv₁ : listOf v₁ (sourcesVariable rule) = sources.map File.unixPath := by
    rw [listOf, valueOf, hsources, Option.getD_some, words_unwords fun w h =>
      (hw w h).2.literal.isWord (hw w h).1]
  obtain ⟨v', hread, hobjects, hkept⟩ := readFrom_objects hr hd hs he hv₁
    ((OrderedMap.find?_insert _ _ _ _).trans (if_pos rfl))
  refine ⟨v', fun rest => ?_, ⟨?_, hobjects⟩, fun name hns hno => ?_⟩
  · rw [listing, assignObjects, List.cons_append, List.cons_append,
      readFrom_assignWords (isVariable_sourcesVariable hr) hw,
      readFrom_assignWords (isVariable_objectsVariable hr) (by simp)]
    exact hread rest
  · rw [listOf, valueOf, hkept _ hne]
    exact hv₁
  · rw [hkept name hno, OrderedMap.find?_insert, if_neg hno, OrderedMap.find?_insert, if_neg hns]

end Listing

section Configurations

variable {p : Project}

def listingOf (p : Project) (c : Configuration) : List Statement :=
  listing c.ruleName (directoryName c.intermediateDirectory) (p.sourcesOf c)

theorem readFrom_listings {configurations : List Configuration}
    (hn : (configurations.map Configuration.ruleName).Nodup)
    (hd : ∀ c ∈ configurations, Consists isPlain (directoryName c.intermediateDirectory))
    (hs : ∀ c ∈ configurations, Readable (p.sourcesOf c)) (v : OrderedMap String) :
    ∃ v', readFrom v (render (configurations.flatMap (listingOf p))) = some v' ∧
      (∀ c ∈ configurations,
        Lists v' c.ruleName (directoryName c.intermediateDirectory) (p.sourcesOf c)) ∧
      ∀ name, (∀ c ∈ configurations,
        name ≠ sourcesVariable c.ruleName ∧ name ≠ objectsVariable c.ruleName) →
          v'.find? name = v.find? name := by
  induction configurations generalizing v with
  | nil => exact ⟨v, rfl, by simp, fun _ _ => rfl⟩
  | cons c configurations ih =>
    rw [List.map_cons, List.nodup_cons] at hn
    obtain ⟨v₁, hread, hlists, hkept⟩ := readFrom_listing (consists_ruleName c)
      (hd c List.mem_cons_self) (hs c List.mem_cons_self) v
    obtain ⟨v', hrest, hall, hkept'⟩ := ih hn.2
      (fun d hm => hd d (List.mem_cons_of_mem c hm))
      (fun d hm => hs d (List.mem_cons_of_mem c hm)) v₁
    have hne : ∀ d ∈ configurations, c.ruleName ≠ d.ruleName := fun d hm he =>
      hn.1 (he ▸ List.mem_map_of_mem hm)
    refine ⟨v', ?_, ?_, ?_⟩
    · rw [List.flatMap_cons, listingOf, hread, hrest]
    · intro d hm
      rcases List.mem_cons.1 hm with rfl | hm
      · refine hlists.congr (hkept' _ fun e he => ⟨?_, ?_⟩) (hkept' _ fun e he => ⟨?_, ?_⟩)
        · exact fun h => hne e he (sourcesVariable_inj h)
        · exact sourcesVariable_ne_objectsVariable _ _
        · exact (sourcesVariable_ne_objectsVariable _ _).symm
        · exact fun h => hne e he (objectsVariable_inj h)
      · exact hall d hm
    · intro name hname
      rw [hkept' name fun d hm => hname d (List.mem_cons_of_mem c hm)]
      obtain ⟨hsrc, hobj⟩ := hname c List.mem_cons_self
      exact hkept name hsrc hobj

def isListing : Statement → Bool
  | .assign name _ _ => isList name
  | .assignWords name _ => isList name
  | _ => false
where
  isList (name : String) : Bool :=
    "_SRCS".toList.isSuffixOf name.toList || "_OBJS".toList.isSuffixOf name.toList

section Kinds

variable {objects : String} {sources : List File} {c : Configuration} {s : Statement}

theorem exists_object_of_mem (h : s ∈ objectRules objects sources) :
    ∃ target source recipe, s = .object target source recipe := by
  rcases List.mem_append.1 h with h | h
  · obtain ⟨pattern, -, rfl⟩ := List.mem_map.1 h
    exact ⟨_, _, _, rfl⟩
  · obtain ⟨f, -, rfl⟩ := List.mem_map.1 h
    exact ⟨_, _, _, rfl⟩

theorem exists_rule_of_mem (h : s ∈ prebuildRules c sources) :
    ∃ target prerequisites recipe, s = .rule target prerequisites recipe := by
  rcases List.mem_cons.1 h with rfl | h
  · exact ⟨_, _, _, rfl⟩
  · rw [Option.mem_toList] at h
    obtain ⟨source, -, rfl⟩ := Option.map_eq_some_iff.1 h
    exact ⟨_, _, _, rfl⟩

theorem cases_of_mem (h : s ∈ buildRules c) :
    (∃ target name value, s = .assignFor target name value) ∨
      ∃ target prerequisites recipe, s = .rule target prerequisites recipe := by
  rcases List.mem_append.1 h with h | h
  · obtain ⟨entry, -, rfl⟩ := List.mem_map.1 h
    exact .inl ⟨_, _, _, rfl⟩
  · unfold targetRules at h
    simp only at h
    split at h
    · simp only [List.mem_cons, List.not_mem_nil, or_false] at h
      rcases h with rfl | rfl | rfl
      · exact .inl ⟨_, _, _, rfl⟩
      · exact .inl ⟨_, _, _, rfl⟩
      · exact .inr ⟨_, _, _, rfl⟩
    · rw [List.mem_singleton.1 h]
      exact .inr ⟨_, _, _, rfl⟩

end Kinds

/-- The lines of the makefile of a project that list sources and objects. -/
def listingText (p : Project) : String := render ((statements p).filter isListing)

theorem filter_eq_nil {q : Statement → Bool} {l : List Statement} (h : ∀ s ∈ l, q s = false) :
    l.filter q = [] :=
  List.filter_eq_nil_iff.2 fun s hs => by simp [h s hs]

theorem filter_parts {q : Statement → Bool} (h : q .blank = false) (c : Configuration)
    (sources : List File) :
    (rulesFor c sources).filter q =
      [.heading c.name, .assignWords (sourcesVariable c.ruleName) (sources.map File.unixPath),
        statsRule c].filter q ++
      (assignObjects c.ruleName (directoryName c.intermediateDirectory)).filter q ++
      (objectRules (directoryName c.intermediateDirectory) sources).filter q ++
      (prebuildRules c sources).filter q ++ (buildRules c).filter q ++
      [mainRule c, cleanRule c].filter q := by
  simp only [← List.filterMap_eq_filter]
  exact filterMap_rulesFor (by simp [Option.guard, h]) c sources

theorem filter_globals (p : Project) : (globals p).filter isListing = [] := by
  rfl

theorem filter_toplevel (p : Project) : (toplevel p).filter isListing = [] := by
  have hgroups : ((generalRules p).map fun general =>
      Statement.group general [] (membersOf p general)).filter isListing = [] := by
    apply filter_eq_nil
    intro s hs
    obtain ⟨general, -, rfl⟩ := List.mem_map.1 hs
    rfl
  rw [toplevel, List.filter_append, List.filter_append, hgroups]
  rfl

theorem isListing_objectRules (objects : String) (sources : List File) :
    ∀ s ∈ objectRules objects sources, isListing s = false := by
  intro s hs
  obtain ⟨target, source, recipe, rfl⟩ := exists_object_of_mem hs
  rfl

theorem isListing_prebuildRules (c : Configuration) (sources : List File) :
    ∀ s ∈ prebuildRules c sources, isListing s = false := by
  intro s hs
  obtain ⟨target, prerequisites, recipe, rfl⟩ := exists_rule_of_mem hs
  rfl

theorem isListing_buildRules (c : Configuration) : ∀ s ∈ buildRules c, isListing s = false := by
  intro s hs
  obtain ⟨target, name, value, rfl⟩ | ⟨target, prerequisites, recipe, rfl⟩ := cases_of_mem hs
  · rfl
  · rfl

theorem isList_sourcesVariable (rule : String) :
    isListing.isList (sourcesVariable rule) = true := by
  simp [isListing.isList, sourcesVariable]

theorem isList_objectsVariable (rule : String) :
    isListing.isList (objectsVariable rule) = true := by
  simp [isListing.isList, objectsVariable]

theorem filter_assignObjects (rule directory : String) :
    (assignObjects rule directory).filter isListing = assignObjects rule directory := by
  apply List.filter_eq_self.2
  intro s hm
  rcases List.mem_cons.1 hm with rfl | hm
  · exact isList_objectsVariable rule
  · obtain ⟨extension, -, rfl⟩ := List.mem_map.1 hm
    exact isList_objectsVariable rule

theorem filter_configurationRules (p : Project) (c : Configuration) :
    (configurationRules p c).filter isListing = listingOf p c := by
  have hhead : ([.heading c.name,
      .assignWords (sourcesVariable c.ruleName) ((p.sourcesOf c).map File.unixPath),
      statsRule c] : List Statement).filter isListing =
        [.assignWords (sourcesVariable c.ruleName) ((p.sourcesOf c).map File.unixPath)] := by
    rw [List.filter_cons_of_neg (by simp [isListing]),
      List.filter_cons_of_pos (by exact isList_sourcesVariable c.ruleName)]
    rfl
  have hend : [mainRule c, cleanRule c].filter isListing = [] := rfl
  rw [configurationRules, filter_parts rfl, hhead, filter_assignObjects,
    filter_eq_nil (isListing_objectRules _ _), filter_eq_nil (isListing_prebuildRules _ _),
    filter_eq_nil (isListing_buildRules c), hend]
  simp only [List.append_nil]
  rfl

theorem filter_statements (p : Project) :
    (statements p).filter isListing = p.configurations.flatMap (listingOf p) := by
  rw [statements, List.filter_append, List.filter_append, filter_globals, filter_toplevel,
    List.filter_flatMap]
  simp only [filter_configurationRules, List.nil_append]

end Configurations

section Projects

/-- The paths of the sources and the intermediate directories are plain. -/
structure PlainPaths (p : Project) : Prop where
  sources : ∀ c ∈ p.configurations, ∀ f ∈ p.sourcesOf c, Consists isPlain f.unixPath
  directories : ∀ c ∈ p.configurations, Consists isPlain (directoryName c.intermediateDirectory)

variable {fs : FileSystem} {seeds : Seeds} {path source : String} {p : Project}

theorem isNamed_sourcesOf (h : Project.ofText fs seeds path source = .ok p) (c : Configuration) :
    ∀ f ∈ p.sourcesOf c, f.IsNamed := by
  intro f hf
  obtain ⟨i, -, hi⟩ := List.mem_filterMap.1 (List.mem_filter.1 hf).1
  exact isNamed_of_ofText h f (List.mem_of_getElem? hi)

theorem extension?_sourcesOf (p : Project) (c : Configuration) :
    ∀ f ∈ p.sourcesOf c, f.extension? ≠ none :=
  fun _ hf => extension?_ne_none_of_isSource (List.mem_filter.1 hf).2

theorem readable_of_plain (h : Project.ofText fs seeds path source = .ok p) {c : Configuration}
    (hs : ∀ f ∈ p.sourcesOf c, Consists isPlain f.unixPath) : Readable (p.sourcesOf c) :=
  ⟨isNamed_sourcesOf h c, extension?_sourcesOf p c, hs⟩

theorem readable_sourcesOf (h : Project.ofText fs seeds path source = .ok p) (hp : PlainPaths p)
    {c : Configuration} (hc : c ∈ p.configurations) : Readable (p.sourcesOf c) :=
  readable_of_plain h (hp.sources c hc)

/-- The listing of a project is read without a fault, and gives every configuration its lists. -/
theorem exists_lists (h : Project.ofText fs seeds path source = .ok p)
    (hn : (p.configurations.map Configuration.ruleName).Nodup) (hp : PlainPaths p) :
    ∃ v, readVariables (listingText p) = some v ∧ ∀ c ∈ p.configurations,
      Lists v c.ruleName (directoryName c.intermediateDirectory) (p.sourcesOf c) := by
  obtain ⟨v, hv, hlists, -⟩ :=
    readFrom_listings hn hp.directories (fun c hc => readable_sourcesOf h hp hc) ∅
  exact ⟨v, by rw [readVariables, listingText, filter_statements, hv], hlists⟩

theorem objectOf_inj {directory : String} {f g : File} :
    objectOf directory f = objectOf directory g ↔ f.stem = g.stem := by
  simp [objectOf, ← String.toList_inj]

theorem Lists.mem_objects_iff {v : OrderedMap String} {rule directory : String}
    {sources : List File} (h : Lists v rule directory sources) (f : File) :
    objectOf directory f ∈ listOf v (objectsVariable rule) ↔
      ∃ g ∈ sources, g.stem = f.stem ∧ ∃ e ∈ objectExtensions, g.extension? = some e := by
  simp only [h.objects_eq, List.mem_flatMap, List.mem_map, withExtension, List.mem_filter,
    decide_eq_true_eq, objectOf_inj]
  constructor
  · rintro ⟨e, he, g, ⟨hg, hx⟩, hs⟩
    exact ⟨g, hg, hs, e, he, hx⟩
  · rintro ⟨g, hg, hs, e, he, hx⟩
    exact ⟨e, he, g, ⟨hg, hx⟩, hs⟩

end Projects

section Mixed

def mixedSource : String :=
  "<VisualStudioProject Name='App'><Configurations>" ++
    "<Configuration Name='Debug|Win32'/></Configurations>" ++
    "<Files><File RelativePath='a.cp'/><File RelativePath='src\\b.c'/></Files>" ++
    "</VisualStudioProject>"

def mixedConfiguration : Xml.Element :=
  { name := "Configuration", attributes := [("Name", "Debug|Win32")] }

def mixedRoot : Xml.Element :=
  { name := "VisualStudioProject"
    attributes := [("Name", "App")]
    children :=
      [{ name := "Configurations", children := [mixedConfiguration] },
       { name := "Files"
         children :=
          [{ name := "File", attributes := [("RelativePath", "a.cp")] },
           { name := "File", attributes := [("RelativePath", "src\\b.c")] }] }] }

/-- The text is taken apart, for its characters are costly to get from one long literal. -/
theorem toList_mixedSource : mixedSource.toList =
    "<VisualStudioProject Name='App'><Configurations>".toList ++
      "<Configuration Name='Debug|Win32'/></Configurations>".toList ++
      "<Files><File RelativePath='a.cp'/><File RelativePath='src\\b.c'/></Files>".toList ++
      "</VisualStudioProject>".toList := by
  unfold mixedSource
  rw [String.toList_append, String.toList_append, String.toList_append]

theorem isDocument_mixedSource : Project.IsDocument mixedSource mixedRoot := by
  refine Project.isDocument_of_rootOf? ?_
  rw [toList_mixedSource]
  decide +kernel

structure IsMixed (p : Project) (c : Configuration) (a b : File) : Prop where
  configurations_eq : p.configurations = [c]
  sourcesOf_eq : p.sourcesOf c = [a, b]
  ruleName_eq : c.ruleName = "DebugWin32"
  directory_eq : directoryName c.intermediateDirectory = "."
  first_eq : (a.unixPath, a.stem, a.extension?) = ("a.cp", "a", some "cp")
  second_eq : (b.unixPath, b.stem, b.extension?) = ("src/b.c", "b", some "c")

theorem exists_isMixed :
    ∃ p c a b, Project.ofText {} {} "App.vcproj" mixedSource = .ok p ∧ IsMixed p c a b := by
  have hp : Project.ofRoot {} (Location.ofPath (FileSystem.workingPath {}) "App.vcproj") {}
    mixedRoot = .ok _ := rfl
  have h := isDocument_mixedSource.ofText_eq hp
  refine ⟨_, _, _, _, h, rfl, rfl, by decide +kernel, ?_, by decide +kernel, by decide +kernel⟩
  show directoryName (VisualStudio.readConfiguration {} _ _
    mixedConfiguration).1.intermediateDirectory = _
  rw [(VisualStudio.readConfiguration_of_no_sheets _ _ _ (by decide)).2.2]
  decide +kernel

namespace IsMixed

variable {p : Project} {c : Configuration} {a b : File}

theorem nodup (h : IsMixed p c a b) : (p.configurations.map Configuration.ruleName).Nodup := by
  rw [h.configurations_eq]
  exact List.nodup_singleton _

theorem plainPaths (h : IsMixed p c a b) : PlainPaths p := by
  have ha : a.unixPath = "a.cp" := congrArg Prod.fst h.first_eq
  have hb : b.unixPath = "src/b.c" := congrArg Prod.fst h.second_eq
  constructor
  · simp only [h.configurations_eq, List.forall_mem_singleton, h.sourcesOf_eq, List.forall_mem_cons,
      ha, hb]
    decide
  · simp only [h.configurations_eq, List.forall_mem_singleton, h.directory_eq]
    decide

end IsMixed

end Mixed

section Linking

variable {fs : FileSystem} {seeds : Seeds} {path source : String} {p : Project}

/-- Reading the lines that list sources and objects as GNU make does, every configuration has its
sources under `_SRCS`, and under `_OBJS` the objects of those sources whose extension is linked. A
source is linked exactly if a source with its stem has such an extension. -/
theorem source_linked_iff (h : Project.ofText fs seeds path source = .ok p)
    (hn : (p.configurations.map Configuration.ruleName).Nodup) (hp : PlainPaths p) :
    ∃ v, readVariables (listingText p) = some v ∧ ∀ c ∈ p.configurations,
      let object := objectOf (directoryName c.intermediateDirectory)
      listOf v (sourcesVariable c.ruleName) = (p.sourcesOf c).map File.unixPath ∧
      listOf v (objectsVariable c.ruleName) = objectExtensions.flatMap (fun e =>
        ((p.sourcesOf c).filter (·.extension? = some e)).map object) ∧
      ∀ f ∈ p.sourcesOf c, object f ∈ listOf v (objectsVariable c.ruleName) ↔
        ∃ g ∈ p.sourcesOf c, g.stem = f.stem ∧ ∃ e ∈ objectExtensions, g.extension? = some e := by
  obtain ⟨v, hv, hlists⟩ := exists_lists h hn hp
  refine ⟨v, hv, fun c hc => ?_⟩
  have hl := hlists c hc
  exact ⟨hl.sources_eq, hl.objects_eq, fun f _ => hl.mem_objects_iff f⟩

theorem source_linked_iff_mixed :
    ∃ p v, Project.ofText {} {} "App.vcproj" mixedSource = .ok p ∧
      (p.configurations.map Configuration.ruleName).Nodup ∧ PlainPaths p ∧
      readVariables (listingText p) = some v ∧
      listOf v "DebugWin32_SRCS" = ["a.cp", "src/b.c"] ∧
      listOf v "DebugWin32_OBJS" = ["./b.o"] := by
  obtain ⟨p, c, a, b, hp, h⟩ := exists_isMixed
  obtain ⟨v, hv, hlists⟩ := source_linked_iff hp h.nodup h.plainPaths
  obtain ⟨hs, ho, -⟩ := hlists c (by simp [h.configurations_eq])
  have ha := h.first_eq
  have hb := h.second_eq
  simp only [Prod.mk.injEq] at ha hb
  rw [h.ruleName_eq, h.sourcesOf_eq] at hs ho
  rw [h.directory_eq] at ho
  refine ⟨p, v, hp, h.nodup, h.plainPaths, hv, hs.trans ?_, ho.trans ?_⟩
  · simp [ha, hb]
  · simp [objectExtensions, objectOf, ha, hb]

/-- The object of a source with another extension is not linked, though the source is listed. -/
theorem source_not_linked_mixed :
    ∃ p, Project.ofText {} {} "App.vcproj" mixedSource = .ok p ∧
      (p.configurations.map Configuration.ruleName).Nodup ∧ PlainPaths p ∧
      ∃ c ∈ p.configurations, ∃ f ∈ p.sourcesOf c, f.isSource = true ∧ f.unixPath = "a.cp" ∧
        ∀ v, readVariables (listingText p) = some v →
          "a.cp" ∈ listOf v (sourcesVariable c.ruleName) ∧
          objectOf (directoryName c.intermediateDirectory) f ∉
            listOf v (objectsVariable c.ruleName) := by
  obtain ⟨p, c, a, b, hp, h⟩ := exists_isMixed
  obtain ⟨v, hv, hlists⟩ := exists_lists hp h.nodup h.plainPaths
  have hc : c ∈ p.configurations := by simp [h.configurations_eq]
  have ha := h.first_eq
  have hb := h.second_eq
  simp only [Prod.mk.injEq] at ha hb
  have hm : a ∈ p.sourcesOf c := by simp [h.sourcesOf_eq]
  refine ⟨p, hp, h.nodup, h.plainPaths, c, hc, a, hm, (List.mem_filter.1 hm).2, ha.1, ?_⟩
  intro w hw
  obtain rfl : v = w := Option.some.inj (hv.symm.trans hw)
  have hl := hlists c hc
  constructor
  · rw [hl.sources_eq, ← ha.1]
    exact List.mem_map_of_mem hm
  · rw [hl.mem_objects_iff, h.sourcesOf_eq]
    simp [objectExtensions, ha, hb]

end Linking

end StudioMake.Makefile
