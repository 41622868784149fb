import StudioMake.Proofs.Makefile.LinkedObjects
import StudioMake.Proofs.Makefile.PlainText

/-!
# Sources that share an object

The objects of a configuration lie in one directory and are named after the stems of its sources. A
source loses its own directory and its extension on the way, so two sources share an object exactly
if their stems agree: then each of them has a rule that makes the object, and the object is linked
once for each.
-/

set_option autoImplicit false

namespace StudioMake.Makefile

section Names

variable {f g : File} {extension : String}

theorem fileName_of_no_slash {path : String} (h : '/' ∉ path.toList) : fileName path = path := by
  simp [fileName, Text.splitLast?, Text.cutLast?_eq_none_iff.2 h]

theorem fileName_append_slash (directory path : String) :
    fileName (directory ++ "/" ++ path) = fileName path := by
  have hpath : (directory ++ "/" ++ path).toList = directory.toList ++ '/' :: path.toList := by
    simp
  cases hc : Text.cutLast? '/' path.toList with
  | none =>
    have hslash := Text.cutLast?_eq_none_iff.1 hc
    rw [fileName_of_no_slash hslash, fileName, Text.splitLast?, hpath,
      Text.cutLast?_append hslash]
    simp
  | some parts =>
    obtain ⟨above, name⟩ := parts
    obtain ⟨hl, hslash⟩ := Text.eq_of_cutLast? hc
    have hwhole : directory.toList ++ '/' :: path.toList =
        (directory.toList ++ '/' :: above) ++ '/' :: name := by
      simp [hl]
    simp only [fileName, Text.splitLast?, hpath, hc, hwhole, Text.cutLast?_append hslash,
      Option.map_some, Option.getD_some]

theorem stem_ne_empty (h : f.extension? = some extension) : f.stem ≠ "" := by
  obtain ⟨⟨stem, e⟩, hs, rfl⟩ := Option.map_eq_some_iff.1 h
  have hstem : f.stem = stem := by simp [File.stem, hs]
  rw [hstem]
  simpa using (Option.filter_eq_some_iff.1 hs).2

theorem exists_directory_stem (hn : f.IsNamed) (h : f.extension? = some extension) :
    ∃ directory, f.unixPath.toList = directory ++ f.stem.toList ++ '.' :: extension.toList ∧
      IsDirectory directory ∧ '/' ∉ f.stem.toList ∧ '.' ∉ extension.toList := by
  obtain ⟨directory, hs, hd⟩ := hn.exists_directory
  obtain ⟨hname, hdot⟩ := name_eq_of_extension? h
  refine ⟨directory, ?_, hd, fun hm => hn.slash_notMem (f.stem_subset_name hm), hdot⟩
  rw [hs, hname]
  simp

theorem stem_eq_of_name (h : f.extension? = some extension) {stem other : String}
    (hn : f.name = stem ++ ("." ++ other)) (hd : '.' ∉ other.toList) : f.stem = stem := by
  obtain ⟨hname, hdot⟩ := name_eq_of_extension? h
  have hcut : ∀ {s e : String}, '.' ∉ e.toList →
      Text.cutLast? '.' (s ++ ("." ++ e)).toList = some (s.toList, e.toList) := by
    intro s e he
    simpa using Text.cutLast?_append he s.toList
  have hboth := (congrArg (fun s => Text.cutLast? '.' s.toList) (hname.symm.trans hn))
  simp only [hcut hdot, hcut hd, Option.some.injEq, Prod.mk.injEq] at hboth
  exact String.toList_inj.1 hboth.1

end Names

section Rules

/-- The statement is a rule that makes an object from a source, whose path it may write after a
`./`. Where it holds a `%`, that stands for the same text in both. -/
def Statement.Makes : Statement → String → String → Prop
  | .object target source _, made, path => ∃ stem, stem ≠ "" ∧ replacePercent target stem = made ∧
      (replacePercent source stem = path ∨ replacePercent source stem = "./" ++ path)
  | _, _, _ => False

variable {c : Configuration} {sources : List File} {s : Statement} {made path : String}

def isObjectRule : Statement → Bool
  | .object _ _ _ => true
  | _ => false

theorem isObjectRule_of_makes (h : s.Makes made path) : isObjectRule s = true := by
  cases s with
  | object target source recipe => rfl
  | _ => exact h.elim

theorem filter_rulesFor (c : Configuration) (sources : List File) :
    (rulesFor c sources).filter isObjectRule =
      objectRules (directoryName c.intermediateDirectory) sources := by
  have hobjects : (objectRules (directoryName c.intermediateDirectory) sources).filter
      isObjectRule = objectRules (directoryName c.intermediateDirectory) sources := by
    refine List.filter_eq_self.2 fun s hs => ?_
    obtain ⟨target, source, recipe, rfl⟩ := exists_object_of_mem hs
    rfl
  have hprebuild : (prebuildRules c sources).filter isObjectRule = [] := by
    refine filter_eq_nil fun s hs => ?_
    obtain ⟨target, prerequisites, recipe, rfl⟩ := exists_rule_of_mem hs
    rfl
  have hbuild : (buildRules c).filter isObjectRule = [] := by
    refine filter_eq_nil fun s hs => ?_
    obtain ⟨target, name, value, rfl⟩ | ⟨target, prerequisites, recipe, rfl⟩ := cases_of_mem hs
    · rfl
    · rfl
  rw [filter_parts rfl, hobjects, hprebuild, hbuild, List.append_nil, List.append_nil]
  exact List.append_nil _

theorem exists_makes_iff : (∃ s ∈ rulesFor c sources, s.Makes made path) ↔
    ∃ s ∈ objectRules (directoryName c.intermediateDirectory) sources, s.Makes made path := by
  rw [← filter_rulesFor]
  constructor
  · rintro ⟨s, hs, hm⟩
    exact ⟨s, List.mem_filter.2 ⟨hs, isObjectRule_of_makes hm⟩, hm⟩
  · rintro ⟨s, hs, hm⟩
    exact ⟨s, (List.mem_filter.1 hs).1, hm⟩

theorem replacePercent_of_plain {text : String} (h : Consists isPlain text) (stem : String) :
    replacePercent text stem = text := by
  have hpercent : '%' ∉ text.toList := h.notMem (by decide)
  simp [replacePercent, Text.splitOnce?, Text.cut?_eq_none_iff.2 hpercent]

variable {objects : String}

theorem makes_patternRule_iff (ho : Consists isPlain objects) {directory extension : String}
    (hd : Consists isPlain directory) :
    (patternRule objects (directory, extension)).Makes made path ↔
      ∃ stem, stem ≠ "" ∧ objects ++ "/" ++ stem ++ ".o" = made ∧
        (directory ++ "/" ++ stem ++ ("." ++ extension) = path ∨
          directory ++ "/" ++ stem ++ ("." ++ extension) = "./" ++ path) := by
  have hfill : ∀ {directory : String}, Consists isPlain directory → ∀ after stem,
      replacePercent (directory ++ "/" ++ "%" ++ after) stem =
        directory ++ "/" ++ stem ++ after := by
    intro directory hd after stem
    have hslash : Consists isPlain (directory ++ "/") := hd.append (by decide)
    exact replacePercent_append (hslash.notMem (by decide)) after stem
  have htarget : objects ++ "/%.o" = objects ++ "/" ++ "%" ++ ".o" := by
    simp [← String.toList_inj]
  have hsource :
      directory ++ "/%." ++ extension = directory ++ "/" ++ "%" ++ ("." ++ extension) := by
    simp [← String.toList_inj]
  simp only [patternRule, Statement.Makes, htarget, hsource, hfill ho, hfill hd]

theorem makes_fileRule_iff {f : File} (ho : Consists isPlain (objectOf objects f))
    (hp : Consists isPlain f.unixPath) : (fileRule objects f).Makes made path ↔
      objectOf objects f = made ∧ (f.unixPath = path ∨ f.unixPath = "./" ++ path) := by
  have htarget : ∀ stem, replacePercent (objects ++ "/" ++ f.stem ++ ".o") stem =
      objectOf objects f := replacePercent_of_plain ho
  simp only [fileRule, Statement.Makes, htarget, replacePercent_of_plain hp]
  constructor
  · rintro ⟨stem, -, h⟩
    exact h
  · exact fun h => ⟨"%", by decide, h⟩

theorem fileName_written {written : String} (h : written = path ∨ written = "./" ++ path) :
    fileName written = fileName path := by
  rcases h with rfl | rfl
  · rfl
  · exact fileName_append_slash "." path

theorem directoryPart_slash (path : String) :
    directoryPart path ++ "/" ++ fileName path =
      if '/' ∈ path.toList then path else "./" ++ path := by
  simp only [directoryPart, fileName, Text.splitLast?]
  cases hc : Text.cutLast? '/' path.toList with
  | none =>
    rw [if_neg (Text.cutLast?_eq_none_iff.1 hc)]
    simp
  | some parts =>
    obtain ⟨above, name⟩ := parts
    have hpath := (Text.eq_of_cutLast? hc).1
    rw [if_pos (by simp [hpath]), ← String.toList_inj, hpath]
    simp

theorem directoryPart_append_fileName (path : String) :
    directoryPart path ++ "/" ++ fileName path = path ∨
      directoryPart path ++ "/" ++ fileName path = "./" ++ path := by
  rw [directoryPart_slash]
  split
  · exact .inl rfl
  · exact .inr rfl

theorem Readable.consists_stem (hs : Readable sources) {f : File} (hf : f ∈ sources) :
    Consists isPlain f.stem := by
  obtain ⟨e, he⟩ := hs.exists_extension hf
  have hname := Makefile.consists_name (hs.isNamed f hf) (hs.plain f hf)
  rw [(name_eq_of_extension? he).1] at hname
  exact (Consists.append_iff.1 hname).1

theorem Readable.consists_objectOf (hs : Readable sources) (ho : Consists isPlain objects)
    {f : File} (hf : f ∈ sources) : Consists isPlain (objectOf objects f) :=
  ((ho.append (by decide)).append (hs.consists_stem hf)).append (by decide)

theorem Readable.consists_directoryPart (hs : Readable sources) {f : File} (hf : f ∈ sources) :
    Consists isPlain (directoryPart f.unixPath) := by
  rw [directoryPart]
  exact consists_before (hs.plain f hf) (by decide)

theorem mem_patterns_iff {directory extension : String} :
    (directory, extension) ∈ patterns sources ↔ ∃ f ∈ sources, needsOwnRule f = false ∧
      f.extension? = some extension ∧ directoryPart f.unixPath = directory := by
  simp only [patterns, Text.mem_sortedDistinctPairs, List.mem_filterMap, List.mem_filter,
    Bool.not_eq_true', pattern?, Option.map_eq_some_iff, Prod.mk.injEq]
  constructor
  · rintro ⟨f, ⟨hf, hn⟩, e, he, hd, rfl⟩
    exact ⟨f, hf, hn, he, hd⟩
  · rintro ⟨f, hf, hn, he, hd⟩
    exact ⟨f, ⟨hf, hn⟩, extension, he, hd, rfl⟩

/-- What a rule makes from a source is named after the stem of that source. -/
theorem Readable.stem_of_makes (hs : Readable sources) (ho : Consists isPlain objects)
    {stem : String} (hslash : '/' ∉ stem.toList) {g : File} (hg : g ∈ sources)
    (hm : s ∈ objectRules objects sources)
    (h : s.Makes (objects ++ "/" ++ stem ++ ".o") g.unixPath) : g.stem = stem := by
  obtain ⟨e, hge⟩ := hs.exists_extension hg
  have hname := fileName_unixPath (hs.isNamed g hg)
  rcases List.mem_append.1 hm with hm | hm
  · obtain ⟨⟨directory, extension⟩, hp, rfl⟩ := List.mem_map.1 hm
    obtain ⟨f, hf, -, hfe, hd⟩ := mem_patterns_iff.1 hp
    obtain ⟨hfn, hdot⟩ := name_eq_of_extension? hfe
    rw [makes_patternRule_iff ho (hd ▸ hs.consists_directoryPart hf)] at h
    obtain ⟨stem', -, hobject, hpath⟩ := h
    obtain rfl : stem' = stem := by simpa [← String.toList_inj] using hobject
    have hlast : '/' ∉ (stem' ++ ("." ++ extension)).toList := by
      have hnone := (hs.isNamed f hf).slash_notMem
      rw [hfn] at hnone
      simp_all
    have hfile := fileName_written hpath
    rw [String.append_assoc, fileName_append_slash, fileName_of_no_slash hlast, hname] at hfile
    exact stem_eq_of_name hge hfile.symm hdot
  · obtain ⟨f, hf, rfl⟩ := List.mem_map.1 hm
    have hf := (List.mem_filter.1 hf).1
    obtain ⟨e', hfe⟩ := hs.exists_extension hf
    obtain ⟨hfn, hdot⟩ := name_eq_of_extension? hfe
    rw [makes_fileRule_iff (hs.consists_objectOf ho hf) (hs.plain f hf)] at h
    obtain ⟨hobject, hpath⟩ := h
    have hstem : f.stem = stem := by simpa [objectOf, ← String.toList_inj] using hobject
    have hfile := fileName_written hpath
    rw [fileName_unixPath (hs.isNamed f hf), hname, hfn] at hfile
    rw [← hstem]
    exact stem_eq_of_name hge hfile.symm hdot

theorem Readable.makes_object_iff (hs : Readable sources) (ho : Consists isPlain objects)
    {f g : File} (hf : f ∈ sources) (hg : g ∈ sources) :
    (∃ s ∈ objectRules objects sources, s.Makes (objectOf objects f) g.unixPath) ↔
      g.stem = f.stem := by
  have hslash : '/' ∉ f.stem.toList := fun hm =>
    (hs.isNamed f hf).slash_notMem (f.stem_subset_name hm)
  refine ⟨fun ⟨s, hm, h⟩ => hs.stem_of_makes ho hslash hg hm h, fun hstem => ?_⟩
  obtain ⟨e, hge⟩ := hs.exists_extension hg
  have hobject : objectOf objects g = objectOf objects f := objectOf_inj.2 hstem
  cases hn : needsOwnRule g with
  | true =>
    refine ⟨fileRule objects g, List.mem_append_right _ ?_, ?_⟩
    · exact List.mem_map_of_mem (List.mem_filter.2 ⟨hg, hn⟩)
    · rw [makes_fileRule_iff (hs.consists_objectOf ho hg) (hs.plain g hg)]
      exact ⟨hobject, .inl rfl⟩
  | false =>
    have hp : (directoryPart g.unixPath, e) ∈ patterns sources :=
      mem_patterns_iff.2 ⟨g, hg, hn, hge, rfl⟩
    refine ⟨patternRule objects _, List.mem_append_left _ (List.mem_map_of_mem hp), ?_⟩
    rw [makes_patternRule_iff ho (hs.consists_directoryPart hg)]
    refine ⟨g.stem, stem_ne_empty hge, hobject, ?_⟩
    have hpath := directoryPart_append_fileName g.unixPath
    rwa [fileName_unixPath (hs.isNamed g hg), (name_eq_of_extension? hge).1,
      ← String.append_assoc] at hpath

end Rules

section Linking

variable {sources : List File}

/-- A source whose object is linked. -/
def isLinked (f : File) : Bool := f.extension?.any objectExtensions.contains

theorem perm_withExtension {extensions : List String} (hn : extensions.Nodup) :
    (extensions.flatMap (withExtension sources)).Perm
      (sources.filter fun f => f.extension?.any extensions.contains) := by
  induction extensions with
  | nil =>
    rw [List.filter_eq_nil_iff.2 fun f _ => by cases f.extension? <;> simp]
    rfl
  | cons e extensions ih =>
    obtain ⟨he, hn⟩ := List.nodup_cons.1 hn
    let chosen := sources.filter fun f => f.extension?.any (e :: extensions).contains
    have hfirst : chosen.filter (fun f => f.extension? = some e) = withExtension sources e := by
      rw [List.filter_filter]
      refine List.filter_congr fun f _ => ?_
      cases f.extension? with
      | none => rfl
      | some x => by_cases hx : x = e <;> simp [hx]
    have hrest : chosen.filter (fun f => !(f.extension? = some e)) =
        sources.filter fun f => f.extension?.any extensions.contains := by
      rw [List.filter_filter]
      refine List.filter_congr fun f _ => ?_
      cases f.extension? with
      | none => rfl
      | some x => by_cases hx : x = e <;> simp [hx, he]
    have hsplit := List.filter_append_perm (fun f : File => f.extension? = some e) chosen
    rw [hfirst, hrest] at hsplit
    exact ((ih hn).append_left _).trans hsplit

theorem perm_objects (objects : String) :
    (objectExtensions.flatMap fun e => (withExtension sources e).map (objectOf objects)).Perm
      ((sources.filter isLinked).map (objectOf objects)) := by
  have hsources : (objectExtensions.flatMap (withExtension sources)).Perm
      (sources.filter isLinked) := perm_withExtension (by decide)
  have hobjects := hsources.map (objectOf objects)
  rwa [List.map_flatMap] at hobjects

theorem nodup_map_objectOf {objects : String} :
    (sources.map (objectOf objects)).Nodup ↔ (sources.map File.stem).Nodup := by
  have hinjective : Function.Injective fun stem : String => objects ++ "/" ++ stem ++ ".o" := by
    intro a b h
    simpa [← String.toList_inj] using h
  have hmap : sources.map (objectOf objects) =
      (sources.map File.stem).map fun stem => objects ++ "/" ++ stem ++ ".o" := by
    rw [List.map_map]
    rfl
  rw [hmap, List.nodup_map_iff hinjective]

variable {fs : FileSystem} {seeds : Seeds} {path source : String} {p : Project}

theorem exists_objects {c : Configuration} (hs : Readable (p.sourcesOf c))
    (ho : Consists isPlain (directoryName c.intermediateDirectory)) :
    ∃ v, readVariables (render ((configurationRules p c).filter isListing)) = some v ∧
      (listOf v (objectsVariable c.ruleName)).Perm
        (((p.sourcesOf c).filter isLinked).map
          (objectOf (directoryName c.intermediateDirectory))) := by
  obtain ⟨v, hv, hlists, -⟩ := readFrom_listing (consists_ruleName c) ho hs ∅
  refine ⟨v, ?_, ?_⟩
  · have hread := hv []
    rw [List.append_nil] at hread
    rw [readVariables, filter_configurationRules]
    exact hread
  · rw [hlists.objects_eq]
    exact perm_objects _

end Linking

section Twins

def twinSource : String :=
  "<VisualStudioProject Name='App'><Configurations>" ++
    "<Configuration Name='Debug|Win32' IntermediateDirectory='obj'/></Configurations>" ++
    "<Files><File RelativePath='lib\\util.c'/><File RelativePath='src\\util.cpp'/></Files>" ++
    "</VisualStudioProject>"

def twinConfiguration : Xml.Element :=
  { name := "Configuration"
    attributes := [("Name", "Debug|Win32"), ("IntermediateDirectory", "obj")] }

def twinRoot : Xml.Element :=
  { name := "VisualStudioProject"
    attributes := [("Name", "App")]
    children :=
      [{ name := "Configurations", children := [twinConfiguration] },
       { name := "Files"
         children :=
          [{ name := "File", attributes := [("RelativePath", "lib\\util.c")] },
           { name := "File", attributes := [("RelativePath", "src\\util.cpp")] }] }] }

theorem toList_twinSource : twinSource.toList =
    "<VisualStudioProject Name='App'><Configurations>".toList ++
      "<Configuration Name='Debug|Win32' IntermediateDirectory='obj'/></Configurations>".toList ++
      "<Files><File RelativePath='lib\\util.c'/><File RelativePath='src\\util.cpp'/></Files>".toList ++
      "</VisualStudioProject>".toList := by
  unfold twinSource
  rw [String.toList_append, String.toList_append, String.toList_append]

structure IsTwin (p : Project) (c : Configuration) (f g : File) : Prop where
  configurations_eq : p.configurations = [c]
  sourcesOf_eq : p.sourcesOf c = [f, g]
  ruleName_eq : c.ruleName = "DebugWin32"
  directory_eq : directoryName c.intermediateDirectory = "obj"
  first_eq : (f.unixPath, f.stem, f.extension?) = ("lib/util.c", "util", some "c")
  second_eq : (g.unixPath, g.stem, g.extension?) = ("src/util.cpp", "util", some "cpp")

theorem exists_isTwin :
    ∃ p c f g, Project.ofText {} {} "App.vcproj" twinSource = .ok p ∧ IsTwin p c f g := by
  have hdocument : Project.IsDocument twinSource twinRoot := by
    refine Project.isDocument_of_rootOf? ?_
    rw [toList_twinSource]
    decide +kernel
  have hp : Project.ofRoot {} (Location.ofPath (FileSystem.workingPath {}) "App.vcproj") {}
    twinRoot = .ok _ := rfl
  have h := hdocument.ofText_eq hp
  refine ⟨_, _, _, _, h, rfl, rfl, by decide +kernel, ?_, by decide +kernel, by decide +kernel⟩
  show directoryName (VisualStudio.readConfiguration {} _ _
    twinConfiguration).1.intermediateDirectory = _
  rw [(VisualStudio.readConfiguration_of_no_sheets _ _ _ (by decide)).2.2]
  decide +kernel

namespace IsTwin

variable {p : Project} {c : Configuration} {f g : File}

theorem paths_eq (h : IsTwin p c f g) : f.unixPath = "lib/util.c" ∧ g.unixPath = "src/util.cpp" :=
  ⟨congrArg Prod.fst h.first_eq, congrArg Prod.fst h.second_eq⟩

theorem objects_eq (h : IsTwin p c f g) :
    objectOf (directoryName c.intermediateDirectory) f = "obj/util.o" ∧
      objectOf (directoryName c.intermediateDirectory) g = "obj/util.o" := by
  have hf : f.stem = "util" := congrArg (fun t => t.2.1) h.first_eq
  have hg : g.stem = "util" := congrArg (fun t => t.2.1) h.second_eq
  rw [objectOf, objectOf, hf, hg, h.directory_eq]
  decide

theorem plain (h : IsTwin p c f g) : Consists isPlain (directoryName c.intermediateDirectory) ∧
    ∀ s ∈ p.sourcesOf c, Consists isPlain s.unixPath := by
  obtain ⟨hf, hg⟩ := h.paths_eq
  rw [h.directory_eq, h.sourcesOf_eq]
  simp only [List.forall_mem_cons, hf, hg]
  decide

theorem linked_eq (h : IsTwin p c f g) : ((p.sourcesOf c).filter isLinked).map
    (objectOf (directoryName c.intermediateDirectory)) = ["obj/util.o", "obj/util.o"] := by
  have hf : f.extension? = some "c" := congrArg (fun t => t.2.2) h.first_eq
  have hg : g.extension? = some "cpp" := congrArg (fun t => t.2.2) h.second_eq
  have hl : isLinked f = true ∧ isLinked g = true := by
    rw [isLinked, isLinked, hf, hg]
    decide
  rw [h.sourcesOf_eq, List.filter_cons_of_pos hl.1, List.filter_cons_of_pos hl.2, List.filter_nil,
    List.map_cons, List.map_cons, List.map_nil, h.objects_eq.1, h.objects_eq.2]

end IsTwin

end Twins

section Sharing

variable {fs : FileSystem} {seeds : Seeds} {path source : String} {p : Project}

/-- A source loses its directory and its extension on the way to its object, so two sources share
an object exactly if their stems agree. Where make takes the directory of objects and the paths
literally, that is what the makefile says: its rules make the object of one source from another
exactly if their stems agree, and the object of each source with a linked extension is listed once
for that source. -/
theorem object_shared_iff (h : Project.ofText fs seeds path source = .ok p) (c : Configuration) :
    let objects := directoryName c.intermediateDirectory
    let sources := p.sourcesOf c
    (∀ f ∈ sources, ∃ directory extension,
      f.unixPath.toList = directory ++ f.stem.toList ++ '.' :: extension ∧
      IsDirectory directory ∧ '/' ∉ f.stem.toList ∧ '.' ∉ extension) ∧
    (∀ f ∈ sources, ∀ g ∈ sources, objectOf objects f = objectOf objects g ↔ f.stem = g.stem) ∧
    (Consists isPlain objects → (∀ f ∈ sources, Consists isPlain f.unixPath) →
      (∀ f ∈ sources, ∀ g ∈ sources,
        (∃ s ∈ configurationRules p c, s.Makes (objectOf objects f) g.unixPath) ↔
          f.stem = g.stem) ∧
      ∃ v, readVariables (render ((configurationRules p c).filter isListing)) = some v ∧
        (listOf v (objectsVariable c.ruleName)).Perm
          ((sources.filter isLinked).map (objectOf objects)) ∧
        ((listOf v (objectsVariable c.ruleName)).Nodup ↔
          ((sources.filter isLinked).map File.stem).Nodup)) := by
  intro objects sources
  refine ⟨fun f hf => ?_, fun f _ g _ => objectOf_inj, fun ho hplain => ⟨fun f hf g hg => ?_, ?_⟩⟩
  · obtain ⟨extension, he⟩ := Option.ne_none_iff_exists'.1 (extension?_sourcesOf p c f hf)
    obtain ⟨directory, hpath⟩ := exists_directory_stem (isNamed_sourcesOf h c f hf) he
    exact ⟨directory, extension.toList, hpath⟩
  · rw [configurationRules, exists_makes_iff,
      (readable_of_plain h hplain).makes_object_iff ho hf hg, eq_comm]
  · obtain ⟨v, hv, hperm⟩ := exists_objects (readable_of_plain h hplain) ho
    exact ⟨v, hv, hperm, by rw [hperm.nodup_iff, nodup_map_objectOf]⟩

theorem object_shared_iff_twins :
    ∃ p c v, Project.ofText {} {} "App.vcproj" twinSource = .ok p ∧ c ∈ p.configurations ∧
      Consists isPlain (directoryName c.intermediateDirectory) ∧
      (∀ f ∈ p.sourcesOf c, Consists isPlain f.unixPath) ∧
      readVariables (render ((configurationRules p c).filter isListing)) = some v ∧
      (listOf v "DebugWin32_OBJS").Perm ["obj/util.o", "obj/util.o"] := by
  obtain ⟨p, c, f, g, hp, h⟩ := exists_isTwin
  obtain ⟨ho, hs⟩ := h.plain
  obtain ⟨-, v, hv, hperm, -⟩ := (object_shared_iff hp c).2.2 ho hs
  rw [h.linked_eq, h.ruleName_eq] at hperm
  exact ⟨p, c, v, hp, by simp [h.configurations_eq], ho, hs, hv, hperm⟩

/-- Two sources with different paths have one object. There is a rule that makes it from either, and
it is linked twice. -/
theorem twins_share_object :
    ∃ p c f g, Project.ofText {} {} "App.vcproj" twinSource = .ok p ∧ c ∈ p.configurations ∧
      f ∈ p.sourcesOf c ∧ g ∈ p.sourcesOf c ∧ f.unixPath ≠ g.unixPath ∧
      objectOf (directoryName c.intermediateDirectory) f = "obj/util.o" ∧
      objectOf (directoryName c.intermediateDirectory) g = "obj/util.o" ∧
      (∃ s ∈ configurationRules p c, s.Makes "obj/util.o" f.unixPath) ∧
      (∃ s ∈ configurationRules p c, s.Makes "obj/util.o" g.unixPath) ∧
      ∀ v, readVariables (render ((configurationRules p c).filter isListing)) = some v →
        (listOf v (objectsVariable c.ruleName)).count "obj/util.o" = 2 := by
  obtain ⟨p, c, f, g, hp, h⟩ := exists_isTwin
  obtain ⟨ho, hplain⟩ := h.plain
  obtain ⟨hfo, hgo⟩ := h.objects_eq
  have hs := readable_of_plain hp hplain
  have hf : f ∈ p.sourcesOf c := by simp [h.sourcesOf_eq]
  have hg : g ∈ p.sourcesOf c := by simp [h.sourcesOf_eq]
  have hpaths : f.unixPath ≠ g.unixPath := by
    rw [h.paths_eq.1, h.paths_eq.2]
    decide
  have hmakes : ∀ {k}, k ∈ p.sourcesOf c →
      objectOf (directoryName c.intermediateDirectory) k = "obj/util.o" →
      ∃ s ∈ configurationRules p c, s.Makes "obj/util.o" k.unixPath := by
    intro k hk hko
    rw [configurationRules, exists_makes_iff, ← hko]
    exact (hs.makes_object_iff ho hk hk).2 rfl
  obtain ⟨v, hv, hperm⟩ := exists_objects hs ho
  refine ⟨p, c, f, g, hp, by simp [h.configurations_eq], hf, hg, hpaths, hfo, hgo, hmakes hf hfo,
    hmakes hg hgo, fun w hw => ?_⟩
  obtain rfl : v = w := Option.some.inj (hv.symm.trans hw)
  rw [hperm.count_eq, h.linked_eq]
  decide

end Sharing

end StudioMake.Makefile
