import StudioMake.Makefile.ProjectRules
import StudioMake.Project.Load
import StudioMake.Proofs.MSBuild.FileLinking
import StudioMake.Proofs.MSBuild.FilterPaths
import StudioMake.Proofs.Project.SourceText
import StudioMake.Proofs.VisualStudio.FilterTree
import StudioMake.Report

/-!
# Indices of files

Configurations and filters refer to the files of their project by index. Here every index that a
loaded project holds is shown to be one of a file. Hence nothing that is made from such a project
changes if an index without a file is an error instead of being passed over.
-/

set_option autoImplicit false

namespace StudioMake

section Lookup

def Project.filesOf? (p : Project) (c : Configuration) : Option (List File) :=
  c.files.mapM (p.files[·]?)

def Project.sourcesOf? (p : Project) (c : Configuration) : Option (List File) :=
  (p.filesOf? c).map (List.filter File.isSource)

/-- The makefile of a project, if every file that it looks up is there. -/
def Makefile.ofProject? (p : Project) : Option String :=
  (p.configurations.mapM fun c => (p.sourcesOf? c).map (rulesFor c)).map fun rules =>
    render (globals p ++ toplevel p ++ rules.flatten)

namespace Report

def fieldText? (p : Project) (c : Configuration) : Field → Option String
  | .sources => (p.sourcesOf? c).map sourceLines
  | field => some (fieldText p c field)

def lines? (p : Project) (fields : List (Field × String)) (c : Configuration) : Option String :=
  (fields.mapM fun entry => (fieldText? p c entry.1).map fun text =>
    expandLabel p c entry.2 ++ text ++ "\n").map String.join

def names? (p : Project) (r : Request) : Option String :=
  (p.configurations.mapM
    (lines? p (r.fields.filter fun entry => entry.1 = .configurations))).map String.join

def details? (p : Project) (r : Request) (c : Configuration) : Option String :=
  lines? p (r.fields.filter fun entry => entry.1 ≠ .configurations) c

/-- The text that a request asks for, if every file that it looks up is there. -/
def text? (p : Project) (r : Request) : Option (Except Failure String) := do
  let names ← names? p r
  if r.needsConfiguration then
    match r.target with
    | .all => return .ok (names ++ String.join (← p.configurations.mapM (details? p r)))
    | .configuration name =>
      match p.configuration? name with
      | some c => return .ok (names ++ (← details? p r c))
      | none => return .error (.unknownConfiguration name)
  else return .ok names

end Report

/-- All indices of a project are ones of its files, and no configuration has one twice. -/
structure Project.Indexed (p : Project) : Prop where
  ordered : ∀ c ∈ p.configurations, c.files.Pairwise (· < ·)
  inRange : ∀ c ∈ p.configurations, ∀ i ∈ c.files, i < p.files.length
  filters : ∀ g ∈ p.allFilters, ∀ i ∈ g.files, i < p.files.length

namespace Project.Indexed

variable {p : Project} {c : Configuration}

theorem filesOf?_eq (h : p.Indexed) (hc : c ∈ p.configurations) :
    p.filesOf? c = some (p.filesOf c) := by
  have hr := h.inRange c hc
  unfold filesOf? filesOf
  generalize c.files = indices at hr
  induction indices with
  | nil => rfl
  | cons i rest ih =>
    have hi := List.getElem?_eq_getElem (hr i List.mem_cons_self)
    rw [List.mapM_cons, List.filterMap_cons, hi, ih fun j hj => hr j (List.mem_cons_of_mem i hj)]
    rfl

theorem sourcesOf?_eq (h : p.Indexed) (hc : c ∈ p.configurations) :
    p.sourcesOf? c = some (p.sourcesOf c) := by
  rw [sourcesOf?, h.filesOf?_eq hc]
  rfl

theorem makefile_eq (h : p.Indexed) : Makefile.ofProject? p = some (Makefile.ofProject p) := by
  have hrules : ∀ c ∈ p.configurations,
      (p.sourcesOf? c).map (Makefile.rulesFor c) = some (Makefile.configurationRules p c) := by
    intro c hc
    rw [h.sourcesOf?_eq hc]
    rfl
  rw [Makefile.ofProject?, mapM_eq_some hrules, Makefile.ofProject, Makefile.statements,
    List.flatMap_def]
  rfl

theorem lines_eq (h : p.Indexed) (hc : c ∈ p.configurations)
    (fields : List (Report.Field × String)) :
    Report.lines? p fields c = some (Report.lines p fields c) := by
  have hfield : ∀ field, Report.fieldText? p c field = some (Report.fieldText p c field) := by
    intro field
    cases field with
    | sources =>
      rw [Report.fieldText?, h.sourcesOf?_eq hc]
      rfl
    | _ => rfl
  rw [Report.lines?, mapM_eq_some fun entry _ => by rw [hfield]; rfl]
  rfl

theorem report_eq (h : p.Indexed) (r : Report.Request) :
    Report.text? p r = some (Report.text p r) := by
  have hnames : Report.names? p r = some (Report.names p r) := by
    rw [Report.names?, mapM_eq_some fun c hc => h.lines_eq hc _]
    rfl
  have hdetails : ∀ c ∈ p.configurations,
      Report.details? p r c = some (Report.details p r c) := fun c hc => h.lines_eq hc _
  unfold Report.text? Report.text
  rw [hnames, Option.bind_eq_bind, Option.bind_some]
  by_cases hn : r.needsConfiguration = true
  · rw [if_pos hn, if_pos hn]
    cases r.target with
    | all =>
      simp only [mapM_eq_some hdetails]
      rfl
    | configuration name =>
      simp only
      cases hc : p.configuration? name with
      | none => rfl
      | some c =>
        simp only [hdetails c (List.mem_of_find?_eq_some hc)]
        rfl
  · rw [if_neg hn, if_neg hn]
    rfl

end Project.Indexed

end Lookup

section Filters

variable {n : Nat} {g : Filter} {filters : List Filter}

def Filter.Below (n : Nat) (g : Filter) : Prop := ∀ f ∈ g.branch, ∀ i ∈ f.files, i < n

theorem Filter.below_iff :
    g.Below n ↔ (∀ i ∈ g.files, i < n) ∧ ∀ f ∈ g.filters, f.Below n := by
  unfold Below
  rw [branch_eq, List.forall_mem_cons]
  simp only [List.mem_flatMap]
  constructor
  · rintro ⟨hg, h⟩
    exact ⟨hg, fun f hf x hx => h x ⟨f, hf, hx⟩⟩
  · rintro ⟨hg, h⟩
    exact ⟨hg, fun x ⟨f, hf, hx⟩ => h f hf x hx⟩

namespace MSBuild

theorem below_alterFilter {name : String} {f : Filter → Filter}
    (hf : ∀ g : Filter, g.Below n → (f g).Below n) (h : ∀ g ∈ filters, g.Below n) :
    ∀ g ∈ alterFilter name f filters, g.Below n := by
  intro g hg
  rcases mem_alterFilter hg with hg | ⟨x, hx | rfl, rfl⟩
  · exact h g hg
  · exact hf x (h x hx)
  · exact hf _ (Filter.below_iff.2 ⟨by simp, by simp⟩)

theorem below_alterFilterAt {f : Filter → Filter} {path : List String}
    (hf : ∀ g : Filter, g.Below n → (f g).Below n) (h : ∀ g ∈ filters, g.Below n) :
    ∀ g ∈ alterFilterAt f path filters, g.Below n := by
  induction path generalizing filters with
  | nil => exact h
  | cons name rest ih =>
    cases rest with
    | nil => exact below_alterFilter hf h
    | cons next rest =>
      refine below_alterFilter (fun g hg => ?_) h
      obtain ⟨hfiles, hfilters⟩ := Filter.below_iff.1 hg
      exact Filter.below_iff.2 ⟨hfiles, ih hfilters⟩

namespace Sorting

theorem lt_of_indexOf? {files : List File} {path : String} {i : Nat}
    (h : indexOf? files path = some i) : i < files.length := by
  obtain ⟨entry, hentry, rfl⟩ := List.mem_map.1 (List.mem_of_getLast? h)
  exact List.snd_lt_of_mem_zipIdx (List.mem_of_mem_filter hentry)

def Indexed (s : Sorting) : Prop := ∀ g ∈ s.filters, g.Below s.files.length

theorem Indexed.add {s : Sorting} (h : s.Indexed) (item : Xml.Element) : (s.add item).Indexed := by
  unfold Sorting.add
  split
  · exact h
  · split
    · refine below_alterFilterAt (fun g hg => ?_) h
      obtain ⟨hfiles, hfilters⟩ := Filter.below_iff.1 hg
      exact Filter.below_iff.2 ⟨hfiles, hfilters⟩
    · split
      · next folder index _ hi =>
        unfold Indexed
        rw [setFilter, List.length_modify]
        refine below_alterFilterAt (fun g hg => ?_) h
        obtain ⟨hfiles, hfilters⟩ := Filter.below_iff.1 hg
        refine Filter.below_iff.2 ⟨fun i hm => ?_, hfilters⟩
        rcases List.mem_append.1 hm with hm | hm
        · exact hfiles i hm
        · rw [List.mem_singleton.1 hm]
          exact lt_of_indexOf? hi
      · exact h

theorem Indexed.foldl_add {s : Sorting} (h : s.Indexed) (items : List Xml.Element) :
    (items.foldl Sorting.add s).Indexed := by
  induction items generalizing s with
  | nil => exact h
  | cons item rest ih => exact ih (h.add item)

theorem indexed_sortFiles (fs : FileSystem) (l : Location) (files : List File) :
    (sortFiles fs l files).Indexed := by
  have hstart : Indexed { files } := by simp [Indexed]
  rw [sortFiles_eq]
  exact hstart.foldl_add (filterItems fs l)

end Sorting

end MSBuild

end Filters

section Loading

variable {fs : FileSystem} {l : Location} {macros : MacroTable} {root : Xml.Element} {p : Project}

theorem VisualStudio.indexed_of_readProject
    (h : VisualStudio.readProject fs l macros root = .ok p) : p.Indexed := by
  have hd := divided_of_readProject h
  constructor
  · intro c hc
    rw [hd.files_eq c hc]
    exact pairwise_builtIndices 0 c.name p.files
  · intro c hc i hi
    rw [hd.files_eq c hc] at hi
    obtain ⟨-, f, hf, -⟩ := mem_builtIndices.1 hi
    exact (List.getElem?_eq_some_iff.1 hf).1
  · obtain ⟨base, hf, hg, -, rfl | ⟨e, rfl⟩⟩ := exists_base_of_readProject h
    · simp [Project.allFilters, hg]
    · intro g hm i hi
      have hi : i ∈ (addFiles base e).allFilters.flatMap Filter.files :=
        List.mem_flatMap.2 ⟨g, hm, hi⟩
      rw [numbers_addFiles, mem_flatMap_filesIn] at hi
      obtain ⟨file, hfile, -⟩ := hi
      rw [← (files_addFiles base e).length_eq]
      exact (List.getElem?_eq_some_iff.1 hfile).1

theorem MSBuild.indexed_of_readProject
    (h : MSBuild.readProject fs l macros root = .ok p) : p.Indexed := by
  obtain ⟨evaluations, linked, -, hp⟩ := exists_linked_of_readProject h
  constructor
  · intro c hc
    obtain ⟨j, hj⟩ := List.mem_iff_getElem?.1 hc
    obtain ⟨s, -, rfl⟩ := hp.configuration_at hj
    exact pairwise_builtIndices linked j
  · intro c hc i hi
    obtain ⟨j, hj⟩ := List.mem_iff_getElem?.1 hc
    obtain ⟨s, -, rfl⟩ := hp.configuration_at hj
    exact hp.lt_length_files hi
  · obtain ⟨-, -, _, linked, -, -, rfl⟩ := readProject_eq_ok_iff.1 h
    intro g hm
    obtain ⟨f, hf, hm⟩ := List.mem_flatMap.1 hm
    exact Sorting.indexed_sortFiles fs l _ f hf g hm

/-- Every index that a loaded project holds, in a configuration or in a filter at any depth, is one
of its files, and a configuration holds its indices in order and each once. So the files of a
configuration, the makefile and every report are made without looking up a file that is not
there. -/
theorem indices_in_range {seeds : Seeds} {path source : String}
    (h : Project.ofText fs seeds path source = .ok p) :
    (∀ c ∈ p.configurations, c.files.Pairwise (· < ·) ∧ ∀ i ∈ c.files, i < p.files.length) ∧
    (∀ g ∈ p.allFilters, ∀ i ∈ g.files, i < p.files.length) ∧
    (∀ c ∈ p.configurations, p.filesOf? c = some (p.filesOf c)) ∧
    Makefile.ofProject? p = some (Makefile.ofProject p) ∧
    ∀ r, Report.text? p r = some (Report.text p r) := by
  obtain ⟨l, macros, root, q, rfl, hq⟩ := Project.exists_readProject_of_ofText h
  have hq : q.Indexed := by
    rcases hq with hq | hq
    · exact VisualStudio.indexed_of_readProject hq
    · exact MSBuild.indexed_of_readProject hq
  have hp : (Project.warnIfNoFiles q).Indexed := by
    unfold Project.warnIfNoFiles
    split
    · exact ⟨hq.ordered, hq.inRange, hq.filters⟩
    · exact hq
  exact ⟨fun c hc => ⟨hp.ordered c hc, hp.inRange c hc⟩, hp.filters,
    fun c hc => hp.filesOf?_eq hc, hp.makefile_eq, hp.report_eq⟩

def filteredSource : String :=
  "<VisualStudioProject Name='App'>" ++
    "<Configurations><Configuration Name='Debug|Win32'/></Configurations>" ++
    "<Files><File RelativePath='a.cc'><FileConfiguration Name='Debug|Win32'" ++
    " ExcludedFromBuild='true'/></File><Filter Name='Source'>" ++
    "<File RelativePath='b.cc'/></Filter></Files></VisualStudioProject>"

def filteredFiles : Xml.Element :=
  { name := "Files"
    children :=
      [{ name := "File"
         attributes := [("RelativePath", "a.cc")]
         children :=
          [{ name := "FileConfiguration"
             attributes := [("Name", "Debug|Win32"), ("ExcludedFromBuild", "true")] }] },
       { name := "Filter"
         attributes := [("Name", "Source")]
         children := [{ name := "File", attributes := [("RelativePath", "b.cc")] }] }] }

def filteredRoot : Xml.Element :=
  { name := "VisualStudioProject"
    attributes := [("Name", "App")]
    children :=
      [{ name := "Configurations"
         children := [{ name := "Configuration", attributes := [("Name", "Debug|Win32")] }] },
       filteredFiles] }

theorem toList_filteredSource : filteredSource.toList =
    "<VisualStudioProject Name='App'>".toList ++
      "<Configurations><Configuration Name='Debug|Win32'/></Configurations>".toList ++
      "<Files><File RelativePath='a.cc'><FileConfiguration Name='Debug|Win32'".toList ++
      " ExcludedFromBuild='true'/></File><Filter Name='Source'>".toList ++
      "<File RelativePath='b.cc'/></Filter></Files></VisualStudioProject>".toList := by
  unfold filteredSource
  rw [String.toList_append, String.toList_append, String.toList_append, String.toList_append]

theorem exists_filtered : ∃ p, Project.ofText {} {} "App.vcproj" filteredSource = .ok p ∧
    p.files.length = 2 ∧ p.configurations.map Configuration.files = [[1]] ∧
    p.allFilters.map Filter.files = [[1]] := by
  have hdocument : Project.IsDocument filteredSource filteredRoot := by
    refine Project.isDocument_of_rootOf? ?_
    rw [toList_filteredSource]
    decide +kernel
  have hp : Project.ofRoot {} (Location.ofPath (FileSystem.workingPath {}) "App.vcproj") {}
    filteredRoot = .ok _ := rfl
  refine ⟨_, hdocument.ofText_eq hp, rfl, by decide +kernel, ?_⟩
  have hlisting : VisualStudio.Listing.ofElements filteredFiles.children =
      [.file _, .filter _ _ [.file _]] := rfl
  show ((VisualStudio.Listing.filters (VisualStudio.Listing.ofElements
    filteredFiles.children)).flatMap Filter.branch).map Filter.files = _
  simp [VisualStudio.Listing.filters, hlisting, VisualStudio.Listing.number, Filter.branch_eq]

theorem indices_in_range_filtered : ∃ p, Project.ofText {} {} "App.vcproj" filteredSource = .ok p ∧
    p.configurations.map Configuration.files = [[1]] ∧ p.allFilters.map Filter.files = [[1]] ∧
    (∀ g ∈ p.allFilters, ∀ i ∈ g.files, i < 2) ∧
    Makefile.ofProject? p = some (Makefile.ofProject p) := by
  obtain ⟨p, hp, hfiles, hconfigurations, hfilters⟩ := exists_filtered
  obtain ⟨-, hrange, -, hmakefile, -⟩ := indices_in_range hp
  rw [hfiles] at hrange
  exact ⟨p, hp, hconfigurations, hfilters, hrange, hmakefile⟩

end Loading

end StudioMake
