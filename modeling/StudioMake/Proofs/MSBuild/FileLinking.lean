import StudioMake.MSBuild.Document
import StudioMake.Proofs.MSBuild.Evaluation
import StudioMake.Proofs.Sequences

/-!
# Files follow the conditions of their items

While the items of a project are linked, the flags of the configurations that build a file and the
names that it excludes come from one pass over the evaluations. Here both are tied to the conditions
of the item, its group and its exclusions, and followed through the sorting into filters.
-/

set_option autoImplicit false

namespace StudioMake

namespace MSBuild

open Xml

section Conditions

variable {fs : FileSystem} {directory : String} {item : FileItem} {s : Evaluation}

/-- The files of an item are built in the final state of a configuration: the conditions of its
group and its own hold there, and those of its exclusions do not. -/
structure FileItem.Builds (fs : FileSystem) (directory : String) (item : FileItem)
    (s : Evaluation) : Prop where
  group : s.holds fs directory item.group = .ok true
  element : s.holds fs directory item.element = .ok true
  exclusions : ∀ e ∈ item.element.childrenNamed "ExcludedFromBuild", saysTrue e = true →
    s.holds fs directory e ≠ .ok true

theorem FileItem.builds_iff : item.Builds fs directory s ↔
    s.holds fs directory item.group = .ok true ∧ s.holds fs directory item.element = .ok true ∧
      ∀ e ∈ item.element.childrenNamed "ExcludedFromBuild", saysTrue e = true →
        s.holds fs directory e ≠ .ok true :=
  ⟨fun h => ⟨h.group, h.element, h.exclusions⟩, fun h => ⟨h.1, h.2.1, h.2.2⟩⟩

instance FileItem.decidableBuilds (fs : FileSystem) (directory : String) (item : FileItem) :
    DecidablePred (item.Builds fs directory) :=
  fun _ => decidable_of_iff _ FileItem.builds_iff.symm

theorem isPresent_eq_ok {b : Bool} (h : item.isPresent fs directory s = .ok b) :
    b = true ↔
      s.holds fs directory item.group = .ok true ∧
        s.holds fs directory item.element = .ok true := by
  obtain ⟨g, hg, h⟩ := bind_eq_ok_iff.1 h
  cases g with
  | false =>
    cases h
    simp [hg]
  | true =>
    have he : s.holds fs directory item.element = .ok b := h
    simp [hg, he]

theorem excludesFrom_eq_ok {l : List Element} {start b : Bool}
    (h : l.foldlM (fun excluded e => do return (← s.holds fs directory e) || excluded) start =
      .ok b) :
    b = true ↔ start = true ∨ ∃ e ∈ l, s.holds fs directory e = .ok true := by
  induction l generalizing start with
  | nil =>
    cases h
    simp
  | cons e l ih =>
    rw [List.foldlM_cons] at h
    obtain ⟨next, hn, h⟩ := bind_eq_ok_iff.1 h
    obtain ⟨on, ho, hn⟩ := bind_eq_ok_iff.1 hn
    cases hn
    rw [ih h]
    cases on <;> simp [ho]

theorem excludes_eq_ok {l : List Element} {b : Bool}
    (h : FileItem.excludes fs directory s l = .ok b) :
    b = true ↔ ∃ e ∈ l, saysTrue e = true ∧ s.holds fs directory e = .ok true := by
  rw [excludesFrom_eq_ok h]
  simp [and_assoc]

theorem isBuilt_eq_ok {b : Bool} (h : item.isBuilt fs directory s = .ok b) :
    b = decide (item.Builds fs directory s) := by
  obtain ⟨present, hp, h⟩ := bind_eq_ok_iff.1 h
  obtain ⟨excluded, he, h⟩ := bind_eq_ok_iff.1 h
  cases h
  have hp := isPresent_eq_ok hp
  have he := excludes_eq_ok he
  rw [Bool.eq_iff_iff, decide_eq_true_iff, FileItem.builds_iff, ← and_assoc, ← hp]
  cases excluded with
  | false => simp_all
  | true => simp_all

end Conditions

section Linking

variable {fs : FileSystem} {directory : String} {evaluations : List Evaluation} {item : FileItem}

/-- The names of the configurations that do not build the files of an item, each where it comes
first. -/
def excludedNames (fs : FileSystem) (directory : String) (evaluations : List Evaluation)
    (item : FileItem) : List String :=
  ((evaluations.filter fun s => ¬ item.Builds fs directory s).map
    (·.configuration.name)).eraseDups

/-- What comes of one path of an item. -/
structure FromItem (fs : FileSystem) (directory : String) (evaluations : List Evaluation)
    (origin : FileItem × String) (l : LinkedFile) : Prop where
  path_eq : l.file.relativePath = origin.2
  excluded_eq : l.file.excluded = excludedNames fs directory evaluations origin.1
  built_eq : l.built = evaluations.map fun s => decide (origin.1.Builds fs directory s)

theorem built_of_mapM {built : List Bool}
    (h : evaluations.mapM (item.isBuilt fs directory) = .ok built) :
    built = evaluations.map fun s => decide (item.Builds fs directory s) := by
  induction mapM_eq_ok_iff.1 h with
  | nil => rfl
  | cons hb hrest ih => rw [isBuilt_eq_ok hb, ih (mapM_eq_ok_iff.2 hrest), List.map_cons]

theorem names_of_flags (p : Evaluation → Bool) (l : List Evaluation) :
    (((l.map Evaluation.configuration).zip (l.map p)).filter fun entry => !entry.2).map (·.1.name) =
      (l.filter fun s => !p s).map (·.configuration.name) := by
  induction l with
  | nil => rfl
  | cons s l ih => cases hp : p s <;> simp_all

theorem linkItem_eq_ok {linked : List LinkedFile}
    (h : linkItem fs directory evaluations item = .ok linked) :
    List.Forall₂ (FromItem fs directory evaluations) (item.paths.map (item, ·)) linked := by
  obtain ⟨built, hb, h⟩ := bind_eq_ok_iff.1 h
  cases h
  have hb := built_of_mapM hb
  subst hb
  rw [List.forall₂_map_left_iff, List.forall₂_map_right_iff, List.forall₂_same]
  intro path _
  refine ⟨rfl, ?_, rfl⟩
  simp only [FileItem.file, names_of_flags, excludedNames, decide_not]

def fileOrigins (items : List FileItem) : List (FileItem × String) :=
  items.flatMap fun item => item.paths.map (item, ·)

theorem forall₂_flatten {items : List FileItem} {groups : List (List LinkedFile)}
    (h : List.Forall₂ (fun item group => linkItem fs directory evaluations item = .ok group) items
      groups) :
    List.Forall₂ (FromItem fs directory evaluations) (fileOrigins items) groups.flatten := by
  induction h with
  | nil => exact .nil
  | cons hb _ ih =>
    rw [fileOrigins, List.flatMap_cons, List.flatten_cons]
    exact List.rel_append (linkItem_eq_ok hb) ih

theorem linkItems_eq_ok {items : List FileItem} {linked : List LinkedFile}
    (h : linkItems fs directory evaluations items = .ok linked) :
    List.Forall₂ (FromItem fs directory evaluations) (fileOrigins items) linked := by
  obtain ⟨groups, hg, rfl⟩ := map_eq_ok_iff.1 h
  exact forall₂_flatten (mapM_eq_ok_iff.1 hg)

end Linking

section Attaching

variable {files : List LinkedFile} {configurations : List Configuration}

theorem mem_builtIndices {i j : Nat} :
    i ∈ builtIndices files j ↔ ∃ l, files[i]? = some l ∧ l.built[j]? = some true := by
  rw [builtIndices, mem_indices_iff (p := fun l : LinkedFile => (l.built[j]?).getD false)]
  simp [Option.getD_eq_iff]

theorem pairwise_builtIndices (files : List LinkedFile) (j : Nat) :
    (builtIndices files j).Pairwise (· < ·) :=
  pairwise_indices _ files 0

theorem getElem?_attachFiles (j : Nat) :
    (attachFiles files configurations)[j]? =
      configurations[j]?.map fun c => { c with files := builtIndices files j } := by
  simp [attachFiles, Function.comp_def]

end Attaching

section Sorting

def unsorted (f : File) : File := { f with filter := none }

theorem map_unsorted_setFilter (files : List File) (i : Nat) (name : String) :
    (Sorting.setFilter files i name).map unsorted = files.map unsorted := by
  apply List.ext_getElem?
  intro j
  rw [Sorting.setFilter, List.getElem?_map, List.getElem?_map, List.getElem?_modify]
  cases files[j]? with
  | none => rfl
  | some f => by_cases h : i = j <;> simp [h, unsorted]

theorem map_unsorted_add (s : Sorting) (item : Element) :
    (s.add item).files.map unsorted = s.files.map unsorted := by
  unfold Sorting.add
  split
  · rfl
  · split
    · rfl
    · split
      · exact map_unsorted_setFilter _ _ _
      · rfl

theorem map_unsorted_foldl_add (items : List Element) (s : Sorting) :
    (items.foldl Sorting.add s).files.map unsorted = s.files.map unsorted := by
  induction items generalizing s with
  | nil => rfl
  | cons item rest ih => rw [List.foldl_cons, ih, map_unsorted_add]

theorem indexOf?_eq_of_relativePath {files files' : List File}
    (h : files.map File.relativePath = files'.map File.relativePath) (path : String) :
    Sorting.indexOf? files path = Sorting.indexOf? files' path := by
  let p : File → Bool := fun f => Text.sameIgnoringCase f.relativePath path
  refine congrArg List.getLast? (indices_eq_of_forall₂ (p := p) (q := p) ?_ 0)
  rw [← List.forall₂_eq_eq_eq, List.forall₂_map_left_iff, List.forall₂_map_right_iff] at h
  refine h.imp fun f g hf => ?_
  simp only [p, hf]

def filterItems (fs : FileSystem) (l : Location) : List Element :=
  match fs.readText (l.absolutePath ++ ".filters") with
  | .error _ => []
  | .ok text =>
    ((Element.ofFile? text).map fun root =>
      (root.childrenNamed "ItemGroup").flatMap Element.children).getD []

theorem sortFiles_eq (fs : FileSystem) (l : Location) (files : List File) :
    sortFiles fs l files = (filterItems fs l).foldl Sorting.add { files } := by
  unfold sortFiles filterItems
  cases fs.readText (l.absolutePath ++ ".filters") with
  | error e => rfl
  | ok text =>
    dsimp only
    cases Element.ofFile? text with
    | none => rfl
    | some root => rfl

theorem map_unsorted_sortFiles (fs : FileSystem) (l : Location) (files : List File) :
    (sortFiles fs l files).files.map unsorted = files.map unsorted := by
  rw [sortFiles_eq]
  exact map_unsorted_foldl_add (filterItems fs l) { files }

end Sorting

section Reading

def evaluateItems (fs : FileSystem) (l : Location) (macros : MacroTable) (root : Element) :
    Except Failure (List Evaluation) :=
  (configurationItems root).mapM (evaluateItem fs l.directory
    (l.setMacros (projectName l root) ((global? root "RootNamespace").getD "") macros) root)

def describesProject (root : Element) : Bool :=
  globalNames.any (fun name => (global? root name).isSome) || root.attributeD "ToolsVersion" ≠ ""

def assemble (fs : FileSystem) (l : Location) (root : Element) (evaluations : List Evaluation)
    (linked : List LinkedFile) : Project :=
  let sorting := sortFiles fs l (linked.map LinkedFile.file)
  { l.project .vcxproj with
    version := root.attributeD "ToolsVersion"
    name := projectName l root
    rootNamespace := (global? root "RootNamespace").getD ""
    guid := (global? root "ProjectGuid").getD ""
    keyword := (global? root "Keyword").getD ""
    projectType := "Visual C++"
    platforms := ((configurationItems root).map ConfigurationItem.platform).eraseDups
    configurations := attachFiles linked (evaluations.map Evaluation.configuration)
    files := sorting.files
    filters := sorting.filters }

theorem mem_children_of_mem_fileItems {root : Element} {item : FileItem}
    (h : item ∈ fileItems root) :
    item.group ∈ root.children ∧ item.element ∈ item.group.children := by
  obtain ⟨group, hg, h⟩ := List.mem_flatMap.1 h
  obtain ⟨element, he, h⟩ := List.mem_filterMap.1 h
  obtain ⟨_, -, rfl⟩ := Option.map_eq_some_iff.1 h
  exact ⟨(List.mem_filter.1 hg).1, (List.mem_filter.1 he).1⟩

theorem readProject_eq_ite (fs : FileSystem) (l : Location) (macros : MacroTable)
    (root : Element) :
    readProject fs l macros root =
      if describesProject root then
        evaluateItems fs l macros root >>= fun evaluations =>
          if (configurationItems root).isEmpty then .error (.noConfigurations l.path)
          else
            linkItems fs l.directory evaluations (fileItems root) >>= fun linked =>
              .ok (assemble fs l root evaluations linked)
      else .error (.noGlobalProperties l.path) := by
  have hd : (!globalNames.any (fun name => (global? root name).isSome) &&
      decide (root.attributeD "ToolsVersion" = "")) = !describesProject root := by
    simp [describesProject, Bool.not_or]
  unfold readProject
  simp only [hd]
  cases describesProject root with
  | false => rfl
  | true =>
    refine congrArg (evaluateItems fs l macros root >>= ·) (funext fun evaluations => ?_)
    cases (configurationItems root).isEmpty <;> rfl

theorem readProject_eq_ok_iff {fs : FileSystem} {l : Location} {macros : MacroTable}
    {root : Element} {p : Project} :
    readProject fs l macros root = .ok p ↔
      describesProject root = true ∧ configurationItems root ≠ [] ∧
        ∃ evaluations linked, evaluateItems fs l macros root = .ok evaluations ∧
          linkItems fs l.directory evaluations (fileItems root) = .ok linked ∧
          assemble fs l root evaluations linked = p := by
  rw [readProject_eq_ite]
  cases describesProject root with
  | false => simp
  | true =>
    simp only [if_true, bind_eq_ok_iff, true_and]
    constructor
    · rintro ⟨evaluations, he, h⟩
      split at h
      · cases h
      · next hn =>
        obtain ⟨linked, hl, h⟩ := bind_eq_ok_iff.1 h
        exact ⟨by simpa using hn, evaluations, linked, he, hl, Except.ok.inj h⟩
    · rintro ⟨hn, evaluations, linked, he, hl, rfl⟩
      refine ⟨evaluations, he, ?_⟩
      rw [if_neg (by simpa using hn)]
      exact bind_eq_ok_iff.2 ⟨linked, hl, rfl⟩

def evaluateItemWithin (n : Nat) (fs : FileSystem) (directory : String) (macros : MacroTable)
    (root : Element) (item : ConfigurationItem) : Option Evaluation :=
  ((evaluateWithin fs n (Pending.ofElements directory root.children)
    { evaluation := .start item.name item.configuration item.platform macros }).bind
      Except.toOption).map fun s => s.evaluation.finish

theorem evaluateItem_of_within {n : Nat} {fs : FileSystem} {directory : String}
    {macros : MacroTable} {root : Element} {item : ConfigurationItem} {s : Evaluation}
    (h : evaluateItemWithin n fs directory macros root item = some s) :
    evaluateItem fs directory macros root item = .ok s := by
  obtain ⟨s', hs, rfl⟩ := Option.map_eq_some_iff.1 h
  obtain ⟨r, hr, hs⟩ := Option.bind_eq_some_iff.1 hs
  rw [evaluateItem, evaluate_of_within hr, eq_ok_of_toOption hs]
  rfl

def readWithin (n : Nat) (fs : FileSystem) (l : Location) (macros : MacroTable) (root : Element) :
    Option Project :=
  if describesProject root && !(configurationItems root).isEmpty then do
    let evaluations ← (configurationItems root).mapM (evaluateItemWithin n fs l.directory
      (l.setMacros (projectName l root) ((global? root "RootNamespace").getD "") macros) root)
    let linked ← (linkItems fs l.directory evaluations (fileItems root)).toOption
    return assemble fs l root evaluations linked
  else none

theorem readProject_of_within {n : Nat} {fs : FileSystem} {l : Location} {macros : MacroTable}
    {root : Element} {p : Project} (h : readWithin n fs l macros root = some p) :
    readProject fs l macros root = .ok p := by
  unfold readWithin at h
  split at h
  · next hc =>
    obtain ⟨hd, hn⟩ := Bool.and_eq_true_iff.1 hc
    obtain ⟨evaluations, he, h⟩ := Option.bind_eq_some_iff.1 h
    obtain ⟨linked, hl, h⟩ := Option.bind_eq_some_iff.1 h
    exact readProject_eq_ok_iff.2 ⟨hd, by simpa using hn, evaluations, linked,
      mapM_ok_of_mapM_some (fun _ _ => evaluateItem_of_within) he, eq_ok_of_toOption hl,
      Option.some.inj h⟩
  · cases h

/-- A project of some kind that is read in at most `n` steps for each configuration is read. -/
theorem exists_readProject_of_within (n : Nat) (fs : FileSystem) (l : Location)
    (macros : MacroTable) (root : Element) (p : Project → Bool)
    (h : (readWithin n fs l macros root).any p = true) :
    ∃ project, readProject fs l macros root = .ok project ∧ p project = true := by
  obtain ⟨project, hr, hp⟩ := (Option.any_eq_true _ _).1 h
  exact ⟨project, readProject_of_within hr, hp⟩

end Reading

/-- What a project holds once it has been read: every configuration with the files it builds, and
every file in the order of the items. -/
structure Linked (fs : FileSystem) (l : Location) (root : Element) (evaluations : List Evaluation)
    (linked : List LinkedFile) (p : Project) : Prop where
  fromItems :
    List.Forall₂ (FromItem fs l.directory evaluations) (fileOrigins (fileItems root)) linked
  configurations_eq :
    p.configurations = attachFiles linked (evaluations.map Evaluation.configuration)
  files_eq : p.files.map unsorted = (linked.map LinkedFile.file).map unsorted

theorem exists_linked_of_readProject {fs : FileSystem} {l : Location} {macros : MacroTable}
    {root : Element} {p : Project} (h : readProject fs l macros root = .ok p) :
    ∃ evaluations linked, evaluateItems fs l macros root = .ok evaluations ∧
      Linked fs l root evaluations linked p := by
  obtain ⟨-, -, evaluations, linked, he, hl, rfl⟩ := readProject_eq_ok_iff.1 h
  exact ⟨evaluations, linked, he, linkItems_eq_ok hl, rfl, map_unsorted_sortFiles fs l _⟩

namespace Linked

variable {fs : FileSystem} {l : Location} {root : Element} {evaluations : List Evaluation}
  {linked : List LinkedFile} {p : Project}

theorem length_files (h : Linked fs l root evaluations linked p) :
    p.files.length = linked.length := by
  have hf := congrArg List.length h.files_eq
  rwa [List.length_map, List.length_map, List.length_map] at hf

theorem configuration_at (h : Linked fs l root evaluations linked p) {j : Nat}
    {c : Configuration} (hc : p.configurations[j]? = some c) :
    ∃ s, evaluations[j]? = some s ∧
      c = { s.configuration with files := builtIndices linked j } := by
  rw [h.configurations_eq, getElem?_attachFiles, List.getElem?_map, Option.map_map] at hc
  obtain ⟨s, hs, rfl⟩ := Option.map_eq_some_iff.1 hc
  exact ⟨s, hs, rfl⟩

theorem file_at (h : Linked fs l root evaluations linked p) {i : Nat}
    {origin : FileItem × String} (ho : (fileOrigins (fileItems root))[i]? = some origin) :
    ∃ lf f, linked[i]? = some lf ∧ FromItem fs l.directory evaluations origin lf ∧
      p.files[i]? = some f ∧ unsorted f = unsorted lf.file := by
  obtain ⟨lf, hl, hi⟩ := getElem?_of_forall₂ h.fromItems ho
  have hf := congrArg (·[i]?) h.files_eq
  simp only [List.getElem?_map, hl, Option.map_some] at hf
  obtain ⟨f, hf, hu⟩ := Option.map_eq_some_iff.1 hf
  exact ⟨lf, f, hl, hi, hf, hu⟩

theorem map_name (h : Linked fs l root evaluations linked p) :
    p.configurations.map Configuration.name = evaluations.map (·.configuration.name) := by
  rw [h.configurations_eq]
  apply List.ext_getElem?
  intro j
  simp [getElem?_attachFiles, Function.comp_def]

theorem mem_files_iff (h : Linked fs l root evaluations linked p) {i j : Nat} {item : FileItem}
    {path : String} {s : Evaluation}
    (ho : (fileOrigins (fileItems root))[i]? = some (item, path))
    (hs : evaluations[j]? = some s) :
    i ∈ builtIndices linked j ↔ item.Builds fs l.directory s := by
  obtain ⟨lf, -, hl, hi, -, -⟩ := h.file_at ho
  rw [mem_builtIndices]
  simp [hl, hi.built_eq, hs]

theorem lt_length_files (h : Linked fs l root evaluations linked p) {i j : Nat}
    (hi : i ∈ builtIndices linked j) : i < p.files.length := by
  obtain ⟨lf, hl, -⟩ := mem_builtIndices.1 hi
  rw [h.length_files]
  exact (List.getElem?_eq_some_iff.1 hl).1

end Linked

theorem mem_excludedNames {fs : FileSystem} {directory : String} {evaluations : List Evaluation}
    {item : FileItem} {name : String} :
    name ∈ excludedNames fs directory evaluations item ↔
      ∃ s ∈ evaluations, ¬ item.Builds fs directory s ∧ s.configuration.name = name := by
  simp [excludedNames, and_assoc]

theorem mem_excludedNames_of_nodup {fs : FileSystem} {directory : String}
    {evaluations : List Evaluation} {item : FileItem}
    (hn : (evaluations.map (·.configuration.name)).Nodup) {s : Evaluation} (hs : s ∈ evaluations) :
    s.configuration.name ∈ excludedNames fs directory evaluations item ↔
      ¬ item.Builds fs directory s := by
  rw [mem_excludedNames]
  constructor
  · rintro ⟨s', hs', hb, he⟩
    rwa [← List.inj_on_of_nodup_map hn hs' hs he]
  · intro hb
    exact ⟨s, hs, hb, rfl⟩

/-- In every project that a document describes, a configuration lists a file exactly if, under its
final macros, the conditions of the item that names the file and of the item's group hold and no
exclusion of the item is on. The file excludes the names of all other configurations, each once and
in their order; where the names of the configurations differ, it so excludes those and only those
that do not list it. -/
theorem files_follow_conditions {fs : FileSystem} {l : Location} {macros : MacroTable}
    {root : Element} {p : Project} (h : readProject fs l macros root = .ok p) :
    ∃ evaluations, evaluateItems fs l macros root = .ok evaluations ∧
      p.configurations.map Configuration.name = evaluations.map (·.configuration.name) ∧
      p.files.length = (fileOrigins (fileItems root)).length ∧
      (∀ c ∈ p.configurations, c.files.Pairwise (· < ·) ∧ ∀ i ∈ c.files, i < p.files.length) ∧
      ∀ i item path, (fileOrigins (fileItems root))[i]? = some (item, path) →
        ∃ f, p.files[i]? = some f ∧ f.relativePath = path ∧
          (∀ (j : Nat) (c : Configuration) (s : Evaluation),
            p.configurations[j]? = some c → evaluations[j]? = some s →
              (i ∈ c.files ↔ item.Builds fs l.directory s)) ∧
          f.excluded.Nodup ∧
          f.excluded = ((evaluations.filter fun s => ¬ item.Builds fs l.directory s).map
            (·.configuration.name)).eraseDups ∧
          ((p.configurations.map Configuration.name).Nodup →
            ∀ c ∈ p.configurations, (i ∈ c.files ↔ c.name ∉ f.excluded)) := by
  obtain ⟨evaluations, linked, he, hp⟩ := exists_linked_of_readProject h
  refine ⟨evaluations, he, hp.map_name, ?_, ?_, ?_⟩
  · rw [hp.length_files, hp.fromItems.length_eq]
  · intro c hc
    obtain ⟨j, hj⟩ := List.mem_iff_getElem?.1 hc
    obtain ⟨s, -, rfl⟩ := hp.configuration_at hj
    exact ⟨pairwise_builtIndices linked j, fun i hi => hp.lt_length_files hi⟩
  · intro i item path ho
    obtain ⟨lf, f, hl, hi, hf, hu⟩ := hp.file_at ho
    have hpath : f.relativePath = path := (congrArg File.relativePath hu).trans hi.path_eq
    have hexcluded : f.excluded = excludedNames fs l.directory evaluations item :=
      (congrArg File.excluded hu).trans hi.excluded_eq
    refine ⟨f, hf, hpath, ?_, ?_, hexcluded, ?_⟩
    · intro j c s hc hs
      obtain ⟨s', hs', rfl⟩ := hp.configuration_at hc
      exact hp.mem_files_iff ho hs
    · rw [hexcluded]
      exact nodup_eraseDups _
    · intro hn c hc
      rw [hp.map_name] at hn
      obtain ⟨j, hj⟩ := List.mem_iff_getElem?.1 hc
      obtain ⟨s, hs, rfl⟩ := hp.configuration_at hj
      rw [hexcluded, mem_excludedNames_of_nodup hn (List.mem_of_getElem? hs), not_not]
      exact hp.mem_files_iff ho hs

def conditionalFiles : Element :=
  { name := "Project"
    attributes := [("ToolsVersion", "4.0")]
    children :=
      [{ name := "ItemGroup"
         children :=
          [{ name := "ProjectConfiguration", attributes := [("Include", "Debug|Win32")] },
           { name := "ProjectConfiguration", attributes := [("Include", "Release|Win32")] }] },
       { name := "PropertyGroup"
         attributes := [("Condition", "'$(Configuration)'=='Release'")]
         children := [{ name := "Lean", text := "yes" }] },
       { name := "ItemGroup"
         attributes := [("Condition", "'$(Platform)'=='win32'")]
         children :=
          [{ name := "ClCompile"
             attributes := [("Include", "a.cpp; b.cpp"), ("Condition", "'$(Lean)'!='yes'")] },
           { name := "ClCompile"
             attributes := [("Include", "c.cpp")]
             children :=
              [{ name := "ExcludedFromBuild"
                 attributes := [("Condition", "'$(Configuration)'=='Debug'")], text := " TRUE " },
               { name := "ExcludedFromBuild"
                 attributes := [("Condition", "'$(Lean)'=='yes'")], text := "true" }] }] }] }

theorem files_follow_conditions_mixed :
    ∃ p, readProject {} (.ofPath "/work" "App.vcxproj") ⟨∅⟩ conditionalFiles = .ok p ∧
      p.configurations.map Configuration.name = ["Debug|Win32", "Release|Win32"] ∧
      p.configurations.map Configuration.files = [[0, 1], []] ∧
      p.files.map File.excluded =
        [["Release|Win32"], ["Release|Win32"], ["Debug|Win32", "Release|Win32"]] ∧
      ∀ i item path, (fileOrigins (fileItems conditionalFiles))[i]? = some (item, path) →
        ∃ f, p.files[i]? = some f ∧ f.relativePath = path ∧
          ∀ c ∈ p.configurations, (i ∈ c.files ↔ c.name ∉ f.excluded) := by
  obtain ⟨p, h, hp⟩ := exists_readProject_of_within 10 {} (.ofPath "/work" "App.vcxproj") ⟨∅⟩
    conditionalFiles
    (fun p =>
      p.configurations.map Configuration.name = ["Debug|Win32", "Release|Win32"] ∧
      p.configurations.map Configuration.files = [[0, 1], []] ∧
      p.files.map File.excluded =
        [["Release|Win32"], ["Release|Win32"], ["Debug|Win32", "Release|Win32"]])
    (by decide +kernel)
  obtain ⟨hn, hb, hx⟩ := of_decide_eq_true hp
  obtain ⟨evaluations, -, -, -, -, hfiles⟩ := files_follow_conditions h
  refine ⟨p, h, hn, hb, hx, ?_⟩
  intro i item path ho
  obtain ⟨f, hf, hpath, -, -, -, hlisted⟩ := hfiles i item path ho
  exact ⟨f, hf, hpath, hlisted (by rw [hn]; decide)⟩

end MSBuild

end StudioMake
