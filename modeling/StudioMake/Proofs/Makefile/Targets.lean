import Mathlib.Data.List.DropRight
import Mathlib.Data.List.Perm.Basic
import StudioMake.Proofs.Makefile.PlainText

/-!
# Targets are defined once

The targets of a makefile are named after a rule, after an object, or after the precompiled header
that a source creates. The first two tell the configurations apart; a header does not, so it is
given a recipe by every configuration that creates it.
-/

set_option autoImplicit false

namespace StudioMake.Makefile

section Names

/-- What a makefile makes by a recipe. -/
inductive Target where
  | default
  | clean
  | stats (rule : String)
  | prebuild (rule : String)
  | build (rule : String)
  | cleanOf (rule : String)
  | object (directory stem : String)
  | header (base : String)
  | pattern (directory : String)
deriving DecidableEq

namespace Target

def name : Target → String
  | default => "default"
  | clean => "clean"
  | stats rule => rule ++ "Stats"
  | prebuild rule => rule ++ "Prebuild"
  | build rule => rule ++ "Build"
  | cleanOf rule => "clean." ++ rule
  | object directory stem => directory ++ "/" ++ stem ++ ".o"
  | header base => base ++ ".h.gch"
  | pattern directory => directory ++ "/%.o"

/-- The targets that are named after a rule are named after one that can stand in a name, and those
that are named after a file after one without a directory. -/
def Valid : Target → Prop
  | stats rule => Consists Configuration.isTargetChar rule
  | prebuild rule => Consists Configuration.isTargetChar rule
  | build rule => Consists Configuration.isTargetChar rule
  | cleanOf rule => Consists Configuration.isTargetChar rule
  | object _ stem => '/' ∉ stem.toList
  | pattern _ => False
  | _ => True

def owner? : Target → Option (String ⊕ String)
  | stats rule => some (.inl rule)
  | prebuild rule => some (.inl rule)
  | build rule => some (.inl rule)
  | cleanOf rule => some (.inl rule)
  | object directory _ => some (.inr directory)
  | _ => none

def ofName (name : List Char) : Target :=
  if ['.', 'h', '.', 'g', 'c', 'h'].isSuffixOf name then header (String.ofList (name.rdrop 6))
  else
    match Text.cutLast? '/' name with
    | some (directory, last) =>
      object (String.ofList directory) (String.ofList (last.rdrop 2))
    | none =>
      if '.' ∈ name then cleanOf (String.ofList (name.drop 6))
      else if ['S', 't', 'a', 't', 's'].isSuffixOf name then stats (String.ofList (name.rdrop 5))
      else if ['P', 'r', 'e', 'b', 'u', 'i', 'l', 'd'].isSuffixOf name then
        prebuild (String.ofList (name.rdrop 8))
      else if ['B', 'u', 'i', 'l', 'd'].isSuffixOf name then build (String.ofList (name.rdrop 5))
      else if name.head? = some 'd' then default
      else clean

theorem cutLast?_rule {rule : String} (h : Consists Configuration.isTargetChar rule)
    {ending : List Char} (hn : '/' ∉ ending) :
    Text.cutLast? '/' (rule.toList ++ ending) = none := by
  rw [Text.cutLast?_eq_none_iff, List.mem_append, not_or]
  exact ⟨h.notMem (by decide), hn⟩

theorem ofName_name {t : Target} (h : t.Valid) : ofName t.name.toList = t := by
  have hdot : Configuration.isTargetChar '.' = false := by decide
  cases t with
  | default => decide
  | clean => decide
  | stats rule =>
    have hn : (stats rule).name.toList = rule.toList ++ ['S', 't', 'a', 't', 's'] := by simp [name]
    rw [hn]
    simp [ofName, cutLast?_rule h, List.isSuffixOf, h.notMem hdot, List.rdrop]
  | prebuild rule =>
    have hn : (prebuild rule).name.toList =
        rule.toList ++ ['P', 'r', 'e', 'b', 'u', 'i', 'l', 'd'] := by simp [name]
    rw [hn]
    simp [ofName, cutLast?_rule h, List.isSuffixOf, h.notMem hdot, List.rdrop]
  | build rule =>
    have hn : (build rule).name.toList = rule.toList ++ ['B', 'u', 'i', 'l', 'd'] := by simp [name]
    rw [hn]
    simp [ofName, cutLast?_rule h, List.isSuffixOf, h.notMem hdot, List.rdrop]
  | cleanOf rule =>
    have hn : (cleanOf rule).name.toList = ['c', 'l', 'e', 'a', 'n', '.'] ++ rule.toList := by
      simp [name]
    have hh : ¬ ['.', 'h', '.', 'g', 'c', 'h'].isSuffixOf (cleanOf rule).name.toList = true := by
      rw [List.isSuffixOf_iff_suffix, hn]
      intro hs
      have hc := hs.sublist.count_le '.'
      simp [List.count_eq_zero_of_not_mem (h.notMem hdot)] at hc
    have hslash : '/' ∉ rule.toList := h.notMem (by decide)
    have hc : Text.cutLast? '/' (cleanOf rule).name.toList = none := by
      simp [hn, Text.cutLast?_eq_none_iff, hslash]
    rw [ofName, if_neg hh, hc]
    simp [hn]
  | object directory stem =>
    have hn : (object directory stem).name.toList =
        directory.toList ++ '/' :: (stem.toList ++ ['.', 'o']) := by simp [name]
    have ho : '/' ∉ stem.toList ++ ['.', 'o'] := by
      have hs : '/' ∉ stem.toList := h
      simp [hs]
    have hc := Text.cutLast?_append ho directory.toList
    rw [hn]
    simp [ofName, hc, List.isSuffixOf, List.rdrop]
  | header base =>
    have hn : (header base).name.toList = base.toList ++ ['.', 'h', '.', 'g', 'c', 'h'] := by
      simp [name]
    rw [hn]
    simp [ofName, List.isSuffixOf, List.rdrop]
  | pattern directory => exact h.elim

theorem name_inj {a b : Target} (ha : a.Valid) (hb : b.Valid) (h : a.name = b.name) : a = b := by
  rw [← ofName_name ha, ← ofName_name hb, h]

end Target

end Names

def isExplicit (target : String) : Bool := '%' ∉ target.toList

section Configurations

variable {c c' : Configuration} {sources sources' : List File}

def headerTarget? (sources : List File) : Option String :=
  (sources.find? (·.precompiledHeader)).map headerOf

def ownTargets (c : Configuration) (sources : List File) : List Target :=
  [.stats c.ruleName] ++
    (sources.filter needsOwnRule).map
      (fun f => .object (directoryName c.intermediateDirectory) f.stem) ++
    [.prebuild c.ruleName] ++ (if (product? c.type).isSome then [.build c.ruleName] else []) ++
    [.cleanOf c.ruleName]

theorem recipes_objectRules (objects : String) (sources : List File) :
    (objectRules objects sources).filterMap Statement.recipeTarget? =
      (patterns sources).map (fun _ => objects ++ "/%.o") ++
        (sources.filter needsOwnRule).map fun f => Target.name (.object objects f.stem) := by
  have hpattern : Statement.recipeTarget? ∘ patternRule objects =
      some ∘ fun _ => objects ++ "/%.o" := rfl
  have hfile : Statement.recipeTarget? ∘ fileRule objects =
      some ∘ fun f => Target.name (.object objects f.stem) := rfl
  rw [objectRules, List.filterMap_append, List.filterMap_map, List.filterMap_map, hpattern, hfile,
    List.filterMap_eq_map, List.filterMap_eq_map]

theorem recipes_prebuildRules (c : Configuration) (sources : List File) :
    (prebuildRules c sources).filterMap Statement.recipeTarget? =
      [Target.name (.prebuild c.ruleName)] ++ (headerTarget? sources).toList := by
  unfold prebuildRules headerTarget?
  cases sources.find? (·.precompiledHeader) <;> rfl

theorem recipes_buildRules (c : Configuration) :
    (buildRules c).filterMap Statement.recipeTarget? =
      (if (product? c.type).isSome then [.build c.ruleName] else []).map Target.name := by
  unfold buildRules targetRules currentValues
  cases c.type <;> rfl

theorem recipes_rulesFor (c : Configuration) (sources : List File) :
    (rulesFor c sources).filterMap Statement.recipeTarget? =
      [Target.name (.stats c.ruleName)] ++
      ((patterns sources).map (fun _ => directoryName c.intermediateDirectory ++ "/%.o") ++
        (sources.filter needsOwnRule).map fun f =>
          Target.name (.object (directoryName c.intermediateDirectory) f.stem)) ++
      ([Target.name (.prebuild c.ruleName)] ++ (headerTarget? sources).toList) ++
      (if (product? c.type).isSome then [.build c.ruleName] else []).map Target.name ++
      [Target.name (.cleanOf c.ruleName)] := by
  rw [filterMap_rulesFor rfl, recipes_objectRules, recipes_prebuildRules, recipes_buildRules]
  rfl

theorem perm_rulesFor (c : Configuration) (sources : List File) :
    (((rulesFor c sources).filterMap Statement.recipeTarget?).filter isExplicit).Perm
      (((ownTargets c sources).map Target.name).filter isExplicit ++
        (headerTarget? sources).toList.filter isExplicit) := by
  have hpattern : ((patterns sources).map fun _ =>
      directoryName c.intermediateDirectory ++ "/%.o").filter isExplicit = [] := by
    simp [isExplicit]
  rw [recipes_rulesFor, ownTargets]
  simp only [List.filter_append, List.map_append, List.map_map, hpattern, List.nil_append,
    List.append_assoc]
  refine .append_left _ (.append_left _ (.append_left _ ?_))
  exact List.perm_append_comm.trans (by simp)

theorem forall_mem_ownTargets {P : Target → Prop} (hstats : P (.stats c.ruleName))
    (hobject : ∀ f ∈ sources, P (.object (directoryName c.intermediateDirectory) f.stem))
    (hprebuild : P (.prebuild c.ruleName)) (hbuild : P (.build c.ruleName))
    (hclean : P (.cleanOf c.ruleName)) : ∀ t ∈ ownTargets c sources, P t := by
  have hproduct : ∀ t ∈ (if (product? c.type).isSome then [Target.build c.ruleName] else []),
      P t := by
    intro t ht
    split at ht
    · rw [List.mem_singleton.1 ht]
      exact hbuild
    · cases ht
  simp only [ownTargets, List.forall_mem_append, List.forall_mem_singleton, List.forall_mem_map]
  exact ⟨⟨⟨⟨hstats, fun f hf => hobject f (List.mem_filter.1 hf).1⟩, hprebuild⟩, hproduct⟩, hclean⟩

theorem valid_of_mem_ownTargets (hs : ∀ f ∈ sources, f.IsNamed) :
    ∀ t ∈ ownTargets c sources, t.Valid := by
  have hr := consists_ruleName c
  refine forall_mem_ownTargets hr (fun f hf hm => ?_) hr hr hr
  exact (hs f hf).slash_notMem (f.stem_subset_name hm)

theorem owner?_of_mem_ownTargets : ∀ t ∈ ownTargets c sources, t.owner? = some (.inl c.ruleName) ∨
    t.owner? = some (.inr (directoryName c.intermediateDirectory)) :=
  forall_mem_ownTargets (.inl rfl) (fun _ _ => .inr rfl) (.inl rfl) (.inl rfl) (.inl rfl)

theorem nodup_ownTargets (hs : ((sources.filter needsOwnRule).map File.stem).Nodup) :
    (ownTargets c sources).Nodup := by
  have ho : ((sources.filter needsOwnRule).map fun f =>
      Target.object (directoryName c.intermediateDirectory) f.stem).Nodup := by
    have hinj : Function.Injective (Target.object (directoryName c.intermediateDirectory)) :=
      fun _ _ h => (Target.object.inj h).2
    simpa [Function.comp_def] using hs.map hinj
  unfold ownTargets
  cases (product? c.type).isSome <;>
    simp [List.nodup_append', List.disjoint_singleton, -List.singleton_append, ho]

/-- Configurations that differ in their rules and in their directories share no target. -/
theorem disjoint_ownTargets (hr : c.ruleName ≠ c'.ruleName)
    (hd : directoryName c.intermediateDirectory ≠ directoryName c'.intermediateDirectory) :
    (ownTargets c sources).Disjoint (ownTargets c' sources') := by
  intro t ht ht'
  rcases owner?_of_mem_ownTargets t ht with h | h <;>
    rcases owner?_of_mem_ownTargets t ht' with h' | h' <;>
    rw [h] at h'
  · exact hr (by simpa using h')
  · cases h'
  · cases h'
  · exact hd (by simpa using h')

end Configurations

section Projects

variable {p : Project}

def projectTargets (p : Project) : List Target :=
  [.default] ++ (if p.configurations = [] then [] else [.clean]) ++
    p.configurations.flatMap fun c => ownTargets c (p.sourcesOf c)

/-- The headers that the configurations create, one after the other. -/
def headers (p : Project) : List String :=
  p.configurations.filterMap fun c => headerTarget? (p.sourcesOf c)

theorem recipes_toplevel (p : Project) : (toplevel p).filterMap Statement.recipeTarget? =
    ([Target.default] ++ if p.configurations = [] then [] else [Target.clean]).map Target.name := by
  have hgroups : ((generalRules p).map fun general =>
      Statement.group general [] (membersOf p general)).filterMap Statement.recipeTarget? = [] := by
    rw [List.filterMap_map]
    exact List.filterMap_eq_nil_iff.2 fun _ _ => rfl
  rw [toplevel, List.filterMap_append, List.filterMap_append, hgroups]
  cases p.configurations <;> rfl

theorem perm_statements (p : Project) :
    (((statements p).filterMap Statement.recipeTarget?).filter isExplicit).Perm
      (((projectTargets p).map Target.name).filter isExplicit ++
        (headers p).filter isExplicit) := by
  have hglobals : (globals p).filterMap Statement.recipeTarget? = [] := rfl
  have hheaders : headers p = p.configurations.flatMap fun c =>
      (headerTarget? (p.sourcesOf c)).toList := List.filterMap_eq_flatMap_toList _ _
  have hrules := List.Perm.flatMap_left p.configurations fun c _ =>
    perm_rulesFor c (p.sourcesOf c)
  have hsplit := hrules.trans (List.flatMap_append_perm _ _ _).symm
  rw [statements, List.filterMap_append, List.filterMap_append, hglobals, recipes_toplevel,
    projectTargets, hheaders]
  simp only [List.nil_append, List.filter_append, List.map_append, List.append_assoc,
    List.filterMap_flatMap, List.map_flatMap, List.filter_flatMap]
  exact .append_left _ (.append_left _ hsplit)

theorem mem_projectTargets {t : Target} (ht : t ∈ projectTargets p) :
    t = .default ∨ t = .clean ∨ ∃ c ∈ p.configurations, t ∈ ownTargets c (p.sourcesOf c) := by
  rcases List.mem_append.1 ht with ht | ht
  · rcases List.mem_append.1 ht with ht | ht
    · exact .inl (List.mem_singleton.1 ht)
    · split at ht
      · cases ht
      · exact .inr (.inl (List.mem_singleton.1 ht))
  · exact .inr (.inr (List.mem_flatMap.1 ht))

theorem valid_of_mem_projectTargets (h : PlainText p) : ∀ t ∈ projectTargets p, t.Valid := by
  intro t ht
  rcases mem_projectTargets ht with rfl | rfl | ⟨c, hc, ht⟩
  · trivial
  · trivial
  · exact valid_of_mem_ownTargets (h.sources c hc).isNamed t ht

theorem nodup_projectTargets (hr : (p.configurations.map Configuration.ruleName).Nodup)
    (hd : (p.configurations.map fun c => directoryName c.intermediateDirectory).Nodup)
    (hs : ∀ c ∈ p.configurations, (((p.sourcesOf c).filter needsOwnRule).map File.stem).Nodup) :
    (projectTargets p).Nodup := by
  have hall : (p.configurations.flatMap fun c => ownTargets c (p.sourcesOf c)).Nodup := by
    rw [List.nodup_flatMap]
    refine ⟨fun c hc => nodup_ownTargets (hs c hc), ?_⟩
    exact (List.pairwise_map.1 hr).imp₂ (fun _ _ => disjoint_ownTargets) (List.pairwise_map.1 hd)
  have howner : ∀ t ∈ p.configurations.flatMap fun c => ownTargets c (p.sourcesOf c),
      t.owner? ≠ none := by
    intro t ht
    obtain ⟨c, -, ht⟩ := List.mem_flatMap.1 ht
    rcases owner?_of_mem_ownTargets t ht with h | h <;> simp [h]
  unfold projectTargets
  generalize p.configurations.flatMap (fun c => ownTargets c (p.sourcesOf c)) = own at hall howner
  have hdefault : Target.default ∉ own := fun hm => howner .default hm rfl
  have hclean : Target.clean ∉ own := fun hm => howner .clean hm rfl
  split
  · simpa using ⟨hdefault, hall⟩
  · simpa using ⟨hdefault, hclean, hall⟩

theorem disjoint_headers (h : PlainText p) :
    ((projectTargets p).map Target.name).Disjoint (headers p) := by
  intro target ht hh
  obtain ⟨t, hm, rfl⟩ := List.mem_map.1 ht
  obtain ⟨c, -, hc⟩ := List.mem_filterMap.1 hh
  obtain ⟨f, -, hf⟩ := Option.map_eq_some_iff.1 hc
  obtain rfl : .header _ = t :=
    Target.name_inj trivial (valid_of_mem_projectTargets h t hm) hf
  rcases mem_projectTargets hm with h | h | ⟨c, -, ht⟩
  · cases h
  · cases h
  · rcases owner?_of_mem_ownTargets _ ht with h | h <;> cases h

/-- If the configurations of a plain project differ in their rules and in their directories of
objects, no explicit target of its makefile is given a recipe twice but for the headers: each of
those is given one by every configuration that creates it. -/
theorem targets_defined_once (h : PlainText p)
    (hr : (p.configurations.map Configuration.ruleName).Nodup)
    (hd : (p.configurations.map fun c => directoryName c.intermediateDirectory).Nodup)
    (hs : ∀ c ∈ p.configurations, (((p.sourcesOf c).filter needsOwnRule).map File.stem).Nodup) :
    let explicit := (recipeTargets (ofProject p)).filter isExplicit
    (explicit.Nodup ↔ ((headers p).filter isExplicit).Nodup) ∧
    ∀ target, 1 < explicit.count target → explicit.count target = (headers p).count target := by
  have hv := valid_of_mem_projectTargets h
  have hown : ((projectTargets p).map Target.name).Nodup :=
    (nodup_projectTargets hr hd hs).map_on fun a ha b hb => Target.name_inj (hv a ha) (hv b hb)
  have hdisjoint := disjoint_headers h
  have hperm := perm_statements p
  rw [ofProject, recipeTargets_render (tidy_statements h)]
  intro explicit
  constructor
  · rw [hperm.nodup_iff, List.nodup_append']
    constructor
    · exact fun hnodup => hnodup.2.1
    · refine fun hheaders => ⟨hown.filter _, hheaders, ?_⟩
      exact List.disjoint_of_subset_left (List.filter_subset_self _)
        (List.disjoint_of_subset_right (List.filter_subset_self _) hdisjoint)
  · intro target ht
    rw [hperm.count_eq, List.count_append] at ht ⊢
    have hle := List.nodup_iff_count_le_one.1 (hown.filter isExplicit) target
    have hheader : target ∈ (headers p).filter isExplicit :=
      List.count_pos_iff.1 (by omega)
    obtain ⟨hm, he⟩ := List.mem_filter.1 hheader
    have hother : target ∉ ((projectTargets p).map Target.name).filter isExplicit :=
      fun ho => hdisjoint (List.mem_filter.1 ho).1 hm
    rw [List.count_eq_zero_of_not_mem hother, Nat.zero_add, List.count_filter he]

end Projects

section Shared

/-- A project with two configurations and a source that creates the precompiled header for both. -/
def sharedHeader : Project :=
  { name := "App"
    path := "App.vcproj"
    directory := "/work"
    configurations := [configuration "Debug", configuration "Release"]
    files :=
      [{ relativePath := "stdafx.cpp", name := "stdafx.cpp", precompiledHeader := true },
       { relativePath := "src\\a.cc", name := "a.cc", compileAsC := true }] }
where
  configuration (name : String) : Configuration :=
    { name := name ++ "|Win32"
      configurationName := name
      platform := "Win32"
      outputDirectory := "bin"
      intermediateDirectory := name ++ "\\"
      type := .application
      files := [0, 1] }

theorem plainText_sharedHeader : PlainText sharedHeader := by
  have hc : ∀ c ∈ sharedHeader.configurations, c.ruleName ≠ "" ∧ IsLine c.name ∧
      (∀ entry ∈ currentValues c, IsLine entry.2) ∧
      Consists isPathChar (directoryName c.intermediateDirectory) := by
    decide +kernel
  have hs : ∀ c ∈ sharedHeader.configurations, ∀ f ∈ sharedHeader.sourcesOf c,
      f.name = Path.displayName f.relativePath ∧ f.extension? ≠ none ∧
      Consists isPathChar f.unixPath := by
    decide +kernel
  refine ⟨by decide, by decide, by decide +kernel, fun c hm => ?_, fun c hm => ?_⟩
  · obtain ⟨hr, hn, hv, hd⟩ := hc c hm
    exact ⟨hr, hn, hv, hd⟩
  · exact ⟨fun f hf => (hs c hm f hf).1, fun f hf => (hs c hm f hf).2.1,
      fun f hf => (hs c hm f hf).2.2⟩

theorem targets_defined_once_shared :
    let explicit := (recipeTargets (ofProject sharedHeader)).filter isExplicit
    PlainText sharedHeader ∧
    (sharedHeader.configurations.map Configuration.ruleName).Nodup ∧
    (sharedHeader.configurations.map fun c => directoryName c.intermediateDirectory).Nodup ∧
    (∀ c ∈ sharedHeader.configurations,
      (((sharedHeader.sourcesOf c).filter needsOwnRule).map File.stem).Nodup) ∧
    ∀ target, 1 < explicit.count target →
      explicit.count target = ["stdafx.h.gch", "stdafx.h.gch"].count target := by
  have hr : (sharedHeader.configurations.map Configuration.ruleName).Nodup := by decide +kernel
  have hd : (sharedHeader.configurations.map fun c =>
      directoryName c.intermediateDirectory).Nodup := by decide +kernel
  have hs : ∀ c ∈ sharedHeader.configurations,
      (((sharedHeader.sourcesOf c).filter needsOwnRule).map File.stem).Nodup := by decide +kernel
  have hheaders : headers sharedHeader = ["stdafx.h.gch", "stdafx.h.gch"] := by decide +kernel
  have h := (targets_defined_once plainText_sharedHeader hr hd hs).2
  rw [hheaders] at h
  exact ⟨plainText_sharedHeader, hr, hd, hs, h⟩

/-- Nothing else in the project sets the names of its rules or its directories against each other,
and still the header is given a recipe twice. -/
theorem header_defined_twice :
    (specificRules sharedHeader ++ generalRules sharedHeader ++ ["default", "all", "clean"]).Nodup ∧
    (sharedHeader.configurations.map Configuration.ruleName).Nodup ∧
    (sharedHeader.configurations.map Configuration.intermediateDirectory).Nodup ∧
    (∀ c ∈ sharedHeader.configurations,
      (((sharedHeader.sourcesOf c).filter needsOwnRule).map File.stem).Nodup) ∧
    ((recipeTargets (ofProject sharedHeader)).filter isExplicit).count "stdafx.h.gch" = 2 := by
  refine ⟨?_, by decide +kernel, by decide +kernel, by decide +kernel, ?_⟩
  · have hperm := ((List.mergeSort_perm
        (sharedHeader.configurations.map Configuration.ruleName).eraseDups Text.le).append
      (List.mergeSort_perm ((sharedHeader.configurations.map generalRule).filter
        (· ≠ "")).eraseDups Text.le)).append_right ["default", "all", "clean"]
    exact hperm.nodup_iff.2 (by decide +kernel)
  · rw [ofProject, recipeTargets_render (tidy_statements plainText_sharedHeader),
      (perm_statements sharedHeader).count_eq]
    decide +kernel

end Shared

end StudioMake.Makefile
