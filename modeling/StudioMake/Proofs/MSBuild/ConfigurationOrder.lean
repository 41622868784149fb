import StudioMake.Proofs.MSBuild.MacroOrder

/-!
# The order of configurations

A project is evaluated for each of its configurations from the same macros and the same document,
so a configuration is made from its own declaration alone. Two documents that declare the same
configurations in different orders give the same project but for that order, as long as no condition
depends on the order in which it meets the properties.
-/

set_option autoImplicit false

namespace StudioMake

structure File.SameUpToOrder (f g : File) : Prop where
  rest : { g with excluded := f.excluded } = f
  excluded : f.excluded.Perm g.excluded

namespace MSBuild

open Xml

def declarations (root : Element) : List Element :=
  (root.childrenNamed "ItemGroup").flatMap (·.childrenNamed "ProjectConfiguration")

def undeclared (e : Element) : Element :=
  if e.name = "ItemGroup" then
    { e with children := e.children.filter (·.name ≠ "ProjectConfiguration") }
  else e

def undeclaredDocument (root : Element) : Element :=
  { root with children := root.children.map undeclared }

/-- Two documents that differ in the order of the configurations that they declare at most. -/
structure Reorders (root root' : Element) : Prop where
  others : undeclaredDocument root = undeclaredDocument root'
  declarations : (declarations root).Perm (declarations root')

theorem Reorders.symm {root root' : Element} (h : Reorders root root') : Reorders root' root :=
  ⟨h.others.symm, h.declarations.symm⟩

theorem name_undeclared (e : Element) : (undeclared e).name = e.name := by
  unfold undeclared
  split <;> rfl

theorem attribute?_undeclared (e : Element) (name : String) :
    (undeclared e).attribute? name = e.attribute? name := by
  unfold undeclared
  split <;> rfl

theorem undeclared_of_ne {e : Element} (h : e.name ≠ "ItemGroup") : undeclared e = e := if_neg h

theorem childrenNamed_undeclaredDocument (root : Element) (name : String) :
    (undeclaredDocument root).childrenNamed name = (root.childrenNamed name).map undeclared := by
  rw [Element.childrenNamed, undeclaredDocument, List.filter_map]
  simp only [Element.childrenNamed, Function.comp_def, name_undeclared]

theorem global?_undeclaredDocument (root : Element) (name : String) :
    global? (undeclaredDocument root) name = global? root name := by
  have hgroups : (undeclaredDocument root).childrenNamed "PropertyGroup" =
      root.childrenNamed "PropertyGroup" := by
    rw [childrenNamed_undeclaredDocument]
    refine (List.map_congr_left fun e he => ?_).trans (List.map_id' _)
    have hn : e.name = "PropertyGroup" := by simpa using (List.mem_filter.1 he).2
    exact undeclared_of_ne (by rw [hn]; decide)
  rw [global?, hgroups, global?]

section Evaluation

variable {fs : FileSystem} {directory : String} {s : Evaluation}

theorem holds_undeclared (e : Element) :
    s.holds fs directory (undeclared e) = s.holds fs directory e := by
  rw [Evaluation.holds, attribute?_undeclared, Evaluation.holds]

theorem step_undeclared (s : Progress) (e : Element) :
    s.step fs ⟨directory, undeclared e⟩ = s.step fs ⟨directory, e⟩ := by
  by_cases h : e.name = "ItemGroup"
  · have hn := name_undeclared e
    rw [Progress.step, Progress.step, holds_undeclared]
    simp only [Progress.enter, Evaluation.apply, hn, h]
    rfl
  · rw [undeclared_of_ne h]

/-- Evaluations go the same way if their elements cause the same steps one by one. -/
theorem evaluate_congr {pending pending' : List Pending} {s : Progress}
    (h : List.Forall₂ (fun p q => ∀ s : Progress, s.step fs p = s.step fs q) pending pending') :
    evaluate fs pending s = evaluate fs pending' s := by
  induction pending, s using evaluate.induct fs generalizing pending' with
  | case1 s =>
    cases h
    rfl
  | case2 s p rest x hx =>
    cases h with
    | cons hp _ => rw [evaluate_of_failure hx, evaluate_of_failure ((hp s).symm.trans hx)]
  | case3 s p rest l s' hs ih =>
    cases h with
    | cons hp hrest =>
      rw [evaluate_of_step hs, evaluate_of_step ((hp s).symm.trans hs)]
      exact ih (List.rel_append (List.forall₂_same.2 fun _ _ _ => rfl) hrest)

theorem evaluateItem_undeclaredDocument (macros : MacroTable) (root : Element)
    (item : ConfigurationItem) :
    evaluateItem fs directory macros (undeclaredDocument root) item =
      evaluateItem fs directory macros root item := by
  have hp : List.Forall₂ (fun p q => ∀ s : Progress, s.step fs p = s.step fs q)
      (Pending.ofElements directory (undeclaredDocument root).children)
      (Pending.ofElements directory root.children) := by
    rw [undeclaredDocument, Pending.ofElements, Pending.ofElements, List.map_map,
      List.forall₂_map_left_iff, List.forall₂_map_right_iff, List.forall₂_same]
    exact fun e _ s => step_undeclared s e
  rw [evaluateItem, evaluate_congr hp, evaluateItem]

end Evaluation

section Linking

variable {fs : FileSystem} {directory : String} {evaluations evaluations' : List Evaluation}

def FileItem.alone (item : FileItem) : FileItem := { item with group := undeclared item.group }

theorem ofGroup_undeclared {group : Element} (h : group.name = "ItemGroup") :
    FileItem.ofGroup (undeclared group) = (FileItem.ofGroup group).map FileItem.alone := by
  have hc : (undeclared group).children.filter (fun e => fileItemNames.contains e.name) =
      group.children.filter fun e => fileItemNames.contains e.name := by
    simp only [undeclared, if_pos h, List.filter_filter]
    apply List.filter_congr
    intro e _
    by_cases hn : e.name = "ProjectConfiguration"
    · simp [hn, fileItemNames]
    · simp [hn]
  rw [FileItem.ofGroup, hc, FileItem.ofGroup, List.map_filterMap]
  simp only [Option.map_map]
  rfl

theorem fileItems_undeclaredDocument (root : Element) :
    fileItems (undeclaredDocument root) = (fileItems root).map FileItem.alone := by
  rw [fileItems, childrenNamed_undeclaredDocument, List.flatMap_map, fileItems, List.map_flatMap]
  refine List.flatMap_congr fun group hg => ?_
  exact ofGroup_undeclared (by simpa using (List.mem_filter.1 hg).2)

theorem linkItem_alone (item : FileItem) :
    linkItem fs directory evaluations item.alone = linkItem fs directory evaluations item := by
  have hb : FileItem.isBuilt fs directory item.alone = FileItem.isBuilt fs directory item := by
    funext s
    rw [FileItem.isBuilt, FileItem.isPresent, FileItem.alone, holds_undeclared]
    rfl
  rw [linkItem, hb, linkItem]
  rfl

theorem linkItems_undeclaredDocument (root : Element) :
    linkItems fs directory evaluations (fileItems (undeclaredDocument root)) =
      linkItems fs directory evaluations (fileItems root) := by
  rw [linkItems, fileItems_undeclaredDocument, List.mapM_map, linkItems]
  exact congrArg (fun f => ((fileItems root).mapM f).map List.flatten) (funext linkItem_alone)

theorem excludedNames_perm (h : evaluations.Perm evaluations') (item : FileItem) :
    (excludedNames fs directory evaluations item).Perm
      (excludedNames fs directory evaluations' item) :=
  perm_eraseDups ((h.filter _).map _)

/-- What an item brings does not depend on the order of the evaluations, but for the order in which
its files name those that exclude them. -/
theorem linkItem_perm (h : evaluations.Perm evaluations') {item : FileItem}
    {linked : List LinkedFile} (hl : linkItem fs directory evaluations item = .ok linked) :
    ∃ linked', linkItem fs directory evaluations' item = .ok linked' ∧
      List.Forall₂ (fun a b => a.file.SameUpToOrder b.file) linked linked' := by
  obtain ⟨built, hb, hl⟩ := bind_eq_ok_iff.1 hl
  cases hl
  obtain ⟨g, -, hg⟩ := exists_map_of_mapM hb
  refine ⟨_, bind_eq_ok_iff.2 ⟨_, hg _ h, rfl⟩, ?_⟩
  rw [built_of_mapM hb, built_of_mapM (hg _ h), List.forall₂_map_left_iff,
    List.forall₂_map_right_iff, List.forall₂_same]
  intro path _
  have hf := (h.map Evaluation.configuration).any_eq (f := fun c => c.forcesInclude path)
  have hx : (excludedNames fs directory evaluations item).Perm
      (excludedNames fs directory evaluations' item) := excludedNames_perm h item
  constructor
  · simp only [FileItem.file, isForcedInclude, hf]
  · simp only [FileItem.file, names_of_flags]
    simpa [excludedNames] using hx

theorem linkItems_perm (h : evaluations.Perm evaluations') {items : List FileItem}
    {linked : List LinkedFile} (hl : linkItems fs directory evaluations items = .ok linked) :
    ∃ linked', linkItems fs directory evaluations' items = .ok linked' ∧
      List.Forall₂ (fun a b => a.file.SameUpToOrder b.file) linked linked' := by
  obtain ⟨groups, hg, rfl⟩ := map_eq_ok_iff.1 hl
  clear hl
  induction mapM_eq_ok_iff.1 hg with
  | nil => exact ⟨[], rfl, .nil⟩
  | cons hitem hrest ih =>
    obtain ⟨linked', hl', hs⟩ := linkItem_perm h hitem
    obtain ⟨below, hb, hsb⟩ := ih (mapM_eq_ok_iff.2 hrest)
    obtain ⟨groups', hg', rfl⟩ := map_eq_ok_iff.1 hb
    refine ⟨linked' ++ groups'.flatten, map_eq_ok_iff.2 ⟨linked' :: groups', ?_, rfl⟩, ?_⟩
    · exact mapM_eq_ok_iff.2 (.cons hl' (mapM_eq_ok_iff.1 hg'))
    · exact List.rel_append hs hsb

def indicesBuilt (fs : FileSystem) (directory : String) (origins : List (FileItem × String))
    (s : Evaluation) : List Nat :=
  (origins.zipIdx.filter fun entry => decide (entry.1.1.Builds fs directory s)).map Prod.snd

theorem attachFiles_eq_map {origins : List (FileItem × String)} {linked : List LinkedFile}
    (h : List.Forall₂ (FromItem fs directory evaluations) origins linked) :
    attachFiles linked (evaluations.map Evaluation.configuration) = evaluations.map fun s =>
      { s.configuration with files := indicesBuilt fs directory origins s } := by
  apply List.ext_getElem?
  intro j
  rw [getElem?_attachFiles, List.getElem?_map, List.getElem?_map, Option.map_map]
  cases hj : evaluations[j]? with
  | none => rfl
  | some s =>
    have hi : builtIndices linked j = indicesBuilt fs directory origins s := by
      refine (indices_eq_of_forall₂ (p := fun origin : FileItem × String =>
        decide (origin.1.Builds fs directory s)) (q := fun lf => (lf.built[j]?).getD false)
        (h.imp fun origin lf hf => ?_) 0).symm
      rw [hf.built_eq, List.getElem?_map, hj]
      rfl
    simp only [Option.map_some, Function.comp_apply, hi]

end Linking

section Sorting

structure Sorting.SameUpToOrder (s t : Sorting) : Prop where
  files : List.Forall₂ File.SameUpToOrder s.files t.files
  filters : s.filters = t.filters

theorem relativePath_eq {f g : File} (h : f.SameUpToOrder g) :
    f.relativePath = g.relativePath := by
  rw [← h.rest]

theorem indexOf?_eq {files files' : List File}
    (h : List.Forall₂ File.SameUpToOrder files files') (path : String) :
    Sorting.indexOf? files path = Sorting.indexOf? files' path := by
  refine indexOf?_eq_of_relativePath ?_ path
  rw [← List.forall₂_eq_eq_eq, List.forall₂_map_left_iff, List.forall₂_map_right_iff]
  exact h.imp fun f g hf => relativePath_eq hf

theorem setFilter_sameUpToOrder {files files' : List File}
    (h : List.Forall₂ File.SameUpToOrder files files') (i : Nat) (name : String) :
    List.Forall₂ File.SameUpToOrder (Sorting.setFilter files i name)
      (Sorting.setFilter files' i name) := by
  unfold Sorting.setFilter
  induction h generalizing i with
  | nil => simp
  | cons hfg hrest ih =>
    cases i with
    | zero =>
      rw [List.modify_zero_cons, List.modify_zero_cons]
      refine .cons ⟨?_, hfg.excluded⟩ hrest
      exact congrArg (fun f : File => { f with filter := some name }) hfg.rest
    | succ i =>
      rw [List.modify_succ_cons, List.modify_succ_cons]
      exact .cons hfg (ih i)

theorem add_sameUpToOrder {s t : Sorting} (h : s.SameUpToOrder t) (item : Element) :
    (s.add item).SameUpToOrder (t.add item) := by
  unfold Sorting.add
  simp only [indexOf?_eq h.files, h.filters]
  split
  · exact h
  · split
    · exact ⟨h.files, rfl⟩
    · split
      · exact ⟨setFilter_sameUpToOrder h.files _ _, rfl⟩
      · exact h

theorem foldl_add_sameUpToOrder {s t : Sorting} (h : s.SameUpToOrder t) (items : List Element) :
    (items.foldl Sorting.add s).SameUpToOrder (items.foldl Sorting.add t) := by
  induction items generalizing s t with
  | nil => exact h
  | cons item rest ih => exact ih (add_sameUpToOrder h item)

theorem sortFiles_sameUpToOrder {fs : FileSystem} {l : Location} {files files' : List File}
    (h : List.Forall₂ File.SameUpToOrder files files') :
    (sortFiles fs l files).SameUpToOrder (sortFiles fs l files') := by
  have hstart : Sorting.SameUpToOrder { files } { files := files' } := ⟨h, rfl⟩
  rw [sortFiles_eq, sortFiles_eq]
  exact foldl_add_sameUpToOrder hstart (filterItems fs l)

end Sorting

section Reading

variable {fs : FileSystem} {l : Location} {macros : MacroTable} {root root' : Element}

instance : Inhabited Evaluation := ⟨.start "" "" "" ⟨∅⟩⟩

theorem attributeD_undeclaredDocument (root : Element) (name : String) :
    (undeclaredDocument root).attributeD name = root.attributeD name := rfl

theorem projectName_undeclaredDocument (l : Location) (root : Element) :
    projectName l (undeclaredDocument root) = projectName l root := by
  rw [projectName, global?_undeclaredDocument, projectName]

theorem describesProject_undeclaredDocument (root : Element) :
    describesProject (undeclaredDocument root) = describesProject root := by
  rw [describesProject, attributeD_undeclaredDocument]
  simp only [global?_undeclaredDocument]
  rfl

namespace Reorders

variable (h : Reorders root root')

include h

theorem configurationItems : (configurationItems root).Perm (configurationItems root') :=
  h.declarations.map _

theorem describesProject_eq : describesProject root = describesProject root' := by
  rw [← describesProject_undeclaredDocument, h.others, describesProject_undeclaredDocument]

theorem projectName_eq (l : Location) : projectName l root = projectName l root' := by
  rw [← projectName_undeclaredDocument, h.others, projectName_undeclaredDocument]

theorem global?_eq (name : String) : global? root name = global? root' name := by
  rw [← global?_undeclaredDocument, h.others, global?_undeclaredDocument]

theorem attributeD_eq (name : String) : root.attributeD name = root'.attributeD name := by
  rw [← attributeD_undeclaredDocument, h.others, attributeD_undeclaredDocument]

theorem evaluateItem_eq (directory : String) (macros : MacroTable) :
    evaluateItem fs directory macros root = evaluateItem fs directory macros root' := by
  funext item
  rw [← evaluateItem_undeclaredDocument, h.others, evaluateItem_undeclaredDocument]

theorem linkItems_eq (directory : String) (evaluations : List Evaluation) :
    linkItems fs directory evaluations (fileItems root) =
      linkItems fs directory evaluations (fileItems root') := by
  rw [← linkItems_undeclaredDocument, h.others, linkItems_undeclaredDocument]

theorem evaluateItems_eq_ok {evaluations : List Evaluation}
    (he : evaluateItems fs l macros root = .ok evaluations) :
    ∃ final : ConfigurationItem → Evaluation,
      evaluations = (MSBuild.configurationItems root).map final ∧
      evaluateItems fs l macros root' = .ok ((MSBuild.configurationItems root').map final) := by
  obtain ⟨final, hf, hp⟩ := exists_map_of_mapM he
  refine ⟨final, hf, ?_⟩
  have hp' := hp _ h.configurationItems
  rw [h.evaluateItem_eq, h.projectName_eq, h.global?_eq] at hp'
  exact hp'

theorem exists_of_readProject {p : Project} (hp : readProject fs l macros root = .ok p) :
    ∃ (final : ConfigurationItem → Evaluation) (linked linked' : List LinkedFile),
      let evaluations := (MSBuild.configurationItems root).map final
      let evaluations' := (MSBuild.configurationItems root').map final
      linkItems fs l.directory evaluations (fileItems root) = .ok linked ∧
      linkItems fs l.directory evaluations' (fileItems root) = .ok linked' ∧
      List.Forall₂ (fun a b => a.file.SameUpToOrder b.file) linked linked' ∧
      p = assemble fs l root evaluations linked ∧
      readProject fs l macros root' = .ok (assemble fs l root' evaluations' linked') := by
  obtain ⟨hd, hn, evaluations, linked, he, hl, rfl⟩ := readProject_eq_ok_iff.1 hp
  obtain ⟨final, rfl, he'⟩ := h.evaluateItems_eq_ok he
  obtain ⟨linked', hl', hs⟩ := linkItems_perm (h.configurationItems.map final) hl
  refine ⟨final, linked, linked', hl, hl', hs, rfl, ?_⟩
  refine readProject_eq_ok_iff.2 ⟨h.describesProject_eq ▸ hd, ?_, _, linked', he', ?_, rfl⟩
  · intro hnil
    have hp := h.configurationItems
    rw [hnil, List.perm_nil] at hp
    exact hn hp
  · rwa [← h.linkItems_eq]

end Reorders

/-- What reading one of two reordered documents tells about the other: one configuration for each
declaration, with all its settings and files, and the same files in the same filters, but for the
order in which a file names the configurations that exclude it. -/
structure Rearranged (root root' : Element) (p p' : Project) : Prop where
  made : ∃ made : ConfigurationItem → Configuration,
    p.configurations = (configurationItems root).map made ∧
      p'.configurations = (configurationItems root').map made
  configurations : p.configurations.Perm p'.configurations
  files : List.Forall₂ File.SameUpToOrder p.files p'.files
  platforms : p.platforms.Perm p'.platforms
  rest :
    { p' with
      configurations := p.configurations
      files := p.files
      platforms := p.platforms } = p

/-- Two failures, of whatever kind, or two projects that are rearrangements of one another. -/
inductive ReadAlike (root root' : Element) : Except Failure Project → Except Failure Project → Prop
  | failures (e e' : Failure) : ReadAlike root root' (.error e) (.error e')
  | projects {p p' : Project} (h : Rearranged root root' p p') :
      ReadAlike root root' (.ok p) (.ok p')

namespace Reorders

variable (h : Reorders root root')

include h

theorem rearranged {p p' : Project} (hp : readProject fs l macros root = .ok p)
    (hp' : readProject fs l macros root' = .ok p') : Rearranged root root' p p' := by
  obtain ⟨final, linked, linked', hl, hl', hs, rfl, hr⟩ := h.exists_of_readProject hp
  rw [hr] at hp'
  cases hp'
  have hsort : (sortFiles fs l (linked.map LinkedFile.file)).SameUpToOrder
      (sortFiles fs l (linked'.map LinkedFile.file)) := by
    apply sortFiles_sameUpToOrder
    rwa [List.forall₂_map_left_iff, List.forall₂_map_right_iff]
  let made : ConfigurationItem → Configuration := fun item =>
    { (final item).configuration with
      files := indicesBuilt fs l.directory (fileOrigins (fileItems root)) (final item) }
  have hc : (assemble fs l root _ linked).configurations =
      (MSBuild.configurationItems root).map made :=
    (attachFiles_eq_map (linkItems_eq_ok hl)).trans List.map_map
  have hc' : (assemble fs l root' _ linked').configurations =
      (MSBuild.configurationItems root').map made :=
    (attachFiles_eq_map (linkItems_eq_ok hl')).trans List.map_map
  refine ⟨⟨made, hc, hc'⟩, ?_, hsort.files, ?_, ?_⟩
  · rw [hc, hc']
    exact h.configurationItems.map made
  · exact perm_eraseDups (h.configurationItems.map _)
  · simp only [assemble, h.attributeD_eq, h.projectName_eq, h.global?_eq, hsort.filters]

theorem readAlike (fs : FileSystem) (l : Location) (macros : MacroTable) :
    ReadAlike root root' (readProject fs l macros root) (readProject fs l macros root') := by
  cases hp : readProject fs l macros root with
  | ok p =>
    obtain ⟨_, _, _, -, -, -, -, hp'⟩ := h.exists_of_readProject hp
    rw [hp']
    exact .projects (h.rearranged hp hp')
  | error e =>
    cases hp' : readProject fs l macros root' with
    | ok p' =>
      obtain ⟨_, _, _, -, -, -, -, hp''⟩ := h.symm.exists_of_readProject hp'
      rw [hp] at hp''
      cases hp''
    | error e' => exact .failures e e'

theorem exists_child {c' : Element} (hc' : c' ∈ root'.children) :
    ∃ c ∈ root.children, c.name = c'.name ∧ undeclared c = undeclared c' := by
  have hm : undeclared c' ∈ (undeclaredDocument root).children := by
    rw [h.others]
    exact List.mem_map_of_mem hc'
  obtain ⟨c, hc, hu⟩ := List.mem_map.1 hm
  refine ⟨c, hc, ?_, hu⟩
  rw [← name_undeclared c, hu, name_undeclared]

/-- What stands in a group of items is a declaration, which the other document has as well, or
stands in the same group of the other document. -/
theorem clear_group {names : List String} (hr : Clear names root) {group : Element}
    (hgroup : group ∈ root'.children) (hg : group.name = "ItemGroup") : Clear names group := by
  obtain ⟨c, hc, hn, hu⟩ := h.exists_child hgroup
  refine .intro ?_ (fun hp => absurd (hg.symm.trans hp) (by decide)) ?_
  · have ha := (hr.child c hc).asked
    rwa [askedNames, ← attribute?_undeclared, hu, attribute?_undeclared] at ha
  · intro d hd
    by_cases hdn : d.name = "ProjectConfiguration"
    · have hm : d ∈ MSBuild.declarations root' := List.mem_flatMap.2
        ⟨group, by simpa [Element.childrenNamed, hg] using hgroup,
          by simpa [Element.childrenNamed, hdn] using hd⟩
      obtain ⟨c', hc', hd'⟩ := List.mem_flatMap.1 (h.declarations.mem_iff.2 hm)
      exact (hr.childNamed c' hc').childNamed d hd'
    · have hm : d ∈ (undeclared c).children := by
        rw [hu, undeclared, if_pos hg]
        simpa [hdn] using hd
      rw [undeclared, if_pos (hn.trans hg)] at hm
      exact (hr.child c hc).child d (List.mem_filter.1 hm).1

theorem clear {names : List String} (hr : Clear names root) : Clear names root' := by
  have hattributes : root.attributes = root'.attributes := by
    show (undeclaredDocument root).attributes = (undeclaredDocument root').attributes
    rw [h.others]
  have hname : root.name = root'.name := by
    show (undeclaredDocument root).name = (undeclaredDocument root').name
    rw [h.others]
  refine .intro ?_ ?_ ?_
  · have ha := hr.asked
    rwa [askedNames, Element.attribute?, hattributes] at ha
  · intro hg property hp
    obtain ⟨c, hc, hn, -⟩ := h.exists_child hp
    rw [← hn]
    exact hr.set (hname.trans hg) c hc
  · intro c' hc'
    by_cases hg : c'.name = "ItemGroup"
    · exact h.clear_group hr hc' hg
    · obtain ⟨c, hc, hn, hu⟩ := h.exists_child hc'
      rw [undeclared_of_ne hg, undeclared_of_ne (hn ▸ hg)] at hu
      exact hu ▸ hr.child c hc

end Reorders

/-- Whether a project can be read does not depend on the order in which it declares its
configurations, and neither does what is read but for that order: with all conditions meeting the
properties in the order of the macros, and, if the project and the sheets that can be read ask only
for names that have at most one other spelling among those that are set, with each condition meeting
them in an order of its own. -/
theorem configurations_follow_declarations (h : Reorders root root') :
    ReadAlike root root' (readProject fs l macros root) (readProject fs l macros root') ∧
    ∀ names : List String, (∀ name ∈ MacroTable.msbuildNames, name ∈ names) →
      (∀ path sheet, fs.documentAt? path = some sheet → Clear names sheet) → Clear names root →
      macros.Within names →
        (∃ r, (AnyOrder.readProject fs l macros root).Yields r) ∧
        (∃ r, (AnyOrder.readProject fs l macros root').Yields r) ∧
        ∀ r r', (AnyOrder.readProject fs l macros root).Yields r →
          (AnyOrder.readProject fs l macros root').Yields r' → ReadAlike root root' r r' := by
  refine ⟨h.readAlike fs l macros, fun names hstandard hsheets hr hm => ?_⟩
  refine ⟨⟨_, AnyOrder.readProject_yields fs l macros root⟩,
    ⟨_, AnyOrder.readProject_yields fs l macros root'⟩, fun r r' hy hy' => ?_⟩
  rw [AnyOrder.readProject_eq_only hstandard hsheets hm l hr, Outcomes.yields_only_iff] at hy
  rw [AnyOrder.readProject_eq_only hstandard hsheets hm l (h.clear hr),
    Outcomes.yields_only_iff] at hy'
  rw [hy, hy']
  exact h.readAlike fs l macros

end Reading

section Swapped

/-- A project with a group of items for each of two declarations. The first file is excluded by all
configurations, the second one is for `Debug` alone. -/
def groupedProject (first second : String) : Element :=
  { name := "Project"
    attributes := [("ToolsVersion", "4.0")]
    children :=
      [{ name := "ItemGroup", children := [declaration first] },
       { name := "PropertyGroup"
         attributes := [("Condition", "'$(Configuration)'=='Debug'")]
         children := [{ name := "OutDir", text := "out" }] },
       { name := "ItemGroup"
         children :=
          [{ name := "ClCompile"
             attributes := [("Include", "a.cpp")]
             children := [{ name := "ExcludedFromBuild", text := "true" }] },
           declaration second,
           { name := "ClCompile"
             attributes :=
              [("Include", "b.cpp"), ("Condition", "'$(Configuration)'=='Debug'")] }] }] }
where
  declaration (name : String) : Element :=
    { name := "ProjectConfiguration", attributes := [("Include", name)] }

theorem reorders_groupedProject (first second : String) :
    Reorders (groupedProject first second) (groupedProject second first) :=
  ⟨rfl, .swap _ _ []⟩

theorem clear_groupedProject (first second : String) :
    Clear MacroTable.msbuildNames (groupedProject first second) := by
  have hdeclaration : ∀ name, Clear MacroTable.msbuildNames (groupedProject.declaration name) :=
    fun name => .of_unconditional rfl
      (by simp [groupedProject.declaration]) (by simp [groupedProject.declaration])
  refine .of_unconditional rfl (by simp [groupedProject]) ?_
  rw [groupedProject, List.forall_mem_cons, List.forall_mem_cons, List.forall_mem_singleton]
  refine ⟨.of_unconditional rfl (by simp) ?_, .intro (by decide +kernel) (fun _ => by decide) ?_,
    .of_unconditional rfl (by simp) ?_⟩
  · rw [List.forall_mem_singleton]
    exact hdeclaration first
  · rw [List.forall_mem_singleton]
    exact .of_unconditional rfl (by decide) (by simp)
  · rw [List.forall_mem_cons, List.forall_mem_cons, List.forall_mem_singleton]
    refine ⟨.of_unconditional rfl (by decide) ?_, hdeclaration second,
      .intro (by decide +kernel) (by decide) (by simp)⟩
    rw [List.forall_mem_singleton]
    exact .of_unconditional rfl (by decide) (by simp)

theorem configurations_follow_declarations_swapped :
    ∃ p p',
      readProject {} (.ofPath "/work" "App.vcxproj") ⟨∅⟩
        (groupedProject "Debug|Win32" "Release|x64") = .ok p ∧
      (AnyOrder.readProject {} (.ofPath "/work" "App.vcxproj") ⟨∅⟩
        (groupedProject "Release|x64" "Debug|Win32")).Yields (.ok p') ∧
      p.configurations.map Configuration.name = ["Debug|Win32", "Release|x64"] ∧
      p.configurations.map Configuration.files = [[1], []] ∧
      p.files.map File.excluded = [["Debug|Win32", "Release|x64"], ["Release|x64"]] ∧
      p.configurations.Perm p'.configurations ∧
      List.Forall₂ File.SameUpToOrder p.files p'.files := by
  obtain ⟨p, hp, hv⟩ := exists_readProject_of_within 10 {} (.ofPath "/work" "App.vcxproj") ⟨∅⟩
    (groupedProject "Debug|Win32" "Release|x64")
    (fun p =>
      p.configurations.map Configuration.name = ["Debug|Win32", "Release|x64"] ∧
      p.configurations.map Configuration.files = [[1], []] ∧
      p.files.map File.excluded = [["Debug|Win32", "Release|x64"], ["Release|x64"]])
    (by decide +kernel)
  obtain ⟨hn, hb, hx⟩ := of_decide_eq_true hv
  have hsame := @configurations_follow_declarations {} (.ofPath "/work" "App.vcxproj") ⟨∅⟩ _ _
    (reorders_groupedProject "Debug|Win32" "Release|x64")
  obtain ⟨-, ⟨r, hr⟩, halike⟩ := hsame.2 MacroTable.msbuildNames (fun _ h => h)
    clear_documents_empty (clear_groupedProject _ _) (by decide)
  have hy := AnyOrder.readProject_yields {} (.ofPath "/work" "App.vcxproj") ⟨∅⟩
    (groupedProject "Debug|Win32" "Release|x64")
  rw [hp] at hy
  cases halike _ _ hy hr with
  | projects h => exact ⟨p, _, hp, hr, hn, hb, hx, h.configurations, h.files⟩

def gatedProject (first second : String) : Element :=
  { name := "Project"
    attributes := [("ToolsVersion", "4.0")]
    children :=
      [{ name := "ItemGroup"
         children := [groupedProject.declaration first, groupedProject.declaration second] },
       { name := "PropertyGroup"
         children := [{ name := "OPT", text := "1" }, { name := "opt", text := "0" }] },
       unsettledGroup] }

theorem exists_evaluateItem_gatedProject (item : ConfigurationItem)
    (hi : item = ⟨"Debug|Win32", "Debug", "Win32"⟩ ∨
      item = ⟨"Release|Win32", "Release", "Win32"⟩) :
    ∃ s, (AnyOrder.evaluateItem {} "/work" (Location.setMacros (.ofPath "/work" "App.vcxproj")
        "App" "" ⟨∅⟩) (gatedProject "Release|Win32" "Debug|Win32") item).Yields (.ok s) ∧
      s.configuration.outputDirectory = "$(SolutionDir)" ++ item.configuration ++ "\\" := by
  obtain ⟨m, hm, hv⟩ := exists_evaluate_of_within {} 5
    (Pending.ofElements "/work" ((gatedProject "Release|Win32" "Debug|Win32").children.take 2))
    { evaluation := .start item.name item.configuration item.platform
        (Location.setMacros (.ofPath "/work" "App.vcxproj") "App" "" ⟨∅⟩) }
    (fun m => Condition.holds ⟨m.evaluation.macros.properties.reverse, "/work", {}⟩
        (unsettledGroup.attribute? "Condition") = .ok false ∧
      m.evaluation.configuration.outputDirectory =
        "$(SolutionDir)" ++ item.configuration ++ "\\")
    (by rcases hi with rfl | rfl <;> decide +kernel)
  obtain ⟨hc, hd⟩ := of_decide_eq_true hv
  have hy := AnyOrder.evaluate_passes_over (p := ⟨"/work", unsettledGroup⟩) hm
    (hc ▸ AnyOrder.holds_yields (OrderedMap.perm_reverse _))
  exact ⟨_, hy.bind (Outcomes.yields_only_iff.2 rfl), hd⟩

/-- The order in which conditions meet two spellings decides what a project is read as, in one and
the same order of its declarations and the more so in two. -/
theorem configurations_differ_on_spellings :
    Reorders (gatedProject "Debug|Win32" "Release|Win32")
        (gatedProject "Release|Win32" "Debug|Win32") ∧
      ∃ p p',
        (AnyOrder.readProject {} (.ofPath "/work" "App.vcxproj") ⟨∅⟩
          (gatedProject "Debug|Win32" "Release|Win32")).Yields (.ok p) ∧
        (AnyOrder.readProject {} (.ofPath "/work" "App.vcxproj") ⟨∅⟩
          (gatedProject "Release|Win32" "Debug|Win32")).Yields (.ok p') ∧
        outputDirectories p = ["chosen", "chosen"] ∧
        outputDirectories p' = ["$(SolutionDir)Release\\", "$(SolutionDir)Debug\\"] ∧
        ¬ ReadAlike (gatedProject "Debug|Win32" "Release|Win32")
          (gatedProject "Release|Win32" "Debug|Win32") (.ok p) (.ok p') := by
  obtain ⟨p, hp, hd⟩ := exists_readProject_of_within 10 {} (.ofPath "/work" "App.vcxproj") ⟨∅⟩
    (gatedProject "Debug|Win32" "Release|Win32")
    (fun p => outputDirectories p = ["chosen", "chosen"]) (by decide +kernel)
  have hd := of_decide_eq_true hd
  obtain ⟨s, hs, hds⟩ := exists_evaluateItem_gatedProject
    ⟨"Release|Win32", "Release", "Win32"⟩ (.inr rfl)
  obtain ⟨t, ht, hdt⟩ := exists_evaluateItem_gatedProject
    ⟨"Debug|Win32", "Debug", "Win32"⟩ (.inl rfl)
  have hy' : (AnyOrder.readProject {} (.ofPath "/work" "App.vcxproj") ⟨∅⟩
      (gatedProject "Release|Win32" "Debug|Win32")).Yields (.ok (assemble {} _ _ [s, t] [])) :=
    AnyOrder.yields_assemble (by decide +kernel) (by decide +kernel)
      (.cons hs (.cons ht .nil)) ((Outcomes.Yields.mapM .nil).bind (Outcomes.yields_only_iff.2 rfl))
  have hd' : outputDirectories (assemble {} (.ofPath "/work" "App.vcxproj")
      (gatedProject "Release|Win32" "Debug|Win32") [s, t] []) =
        ["$(SolutionDir)Release\\", "$(SolutionDir)Debug\\"] := by
    show [s.configuration.outputDirectory, t.configuration.outputDirectory] = _
    rw [hds, hdt]
    decide
  refine ⟨⟨rfl, .swap _ _ []⟩, p, _, hp ▸ AnyOrder.readProject_yields _ _ _ _, hy', hd, hd', ?_⟩
  intro halike
  cases halike with
  | projects h =>
    have hperm := h.configurations.map Configuration.outputDirectory
    change (outputDirectories p).Perm (outputDirectories _) at hperm
    rw [hd, hd'] at hperm
    exact absurd hperm (by decide)

end Swapped

end MSBuild

end StudioMake
