import Mathlib.Logic.Relation
import StudioMake.Proofs.Makefile.LinkedObjects
import StudioMake.Proofs.Makefile.Targets

/-!
# Families of rules

A configuration is built, shown and cleaned by a family of targets that are named after its rule.
The name of a rule keeps only some characters of the name of the configuration, so two
configurations may share a family, and a family may share a target with the rules that stand for
the whole project. This module says when the families of a project are separate, and what one that
is separate keeps apart.
-/

set_option autoImplicit false

namespace StudioMake.Makefile

section Families

def endings : List String := ["Prebuild", "Build", "Stats"]

/-- The targets of the rules of a configuration. -/
def family (c : Configuration) : List String :=
  [c.ruleName] ++ endings.map (c.ruleName ++ ·) ++ ["clean." ++ c.ruleName]

/-- The targets that stand for the whole project or for one configuration on every platform. -/
def sharedTargets (p : Project) : List String := ["default", "all", "clean"] ++ generalRules p

/-- The families of a project are told apart from each other and from the shared targets. -/
structure Separated (p : Project) : Prop where
  ne_empty : ∀ c ∈ p.configurations, "" ∉ family c
  nodup : (p.configurations.flatMap family).Nodup
  disjoint : (p.configurations.flatMap family).Disjoint (sharedTargets p)

/-- The names of the rules of a project are told apart, also where one ends in what another adds. -/
structure Distinguished (p : Project) : Prop where
  nodup : (p.configurations.map Configuration.ruleName).Nodup
  fixed : ∀ c ∈ p.configurations, c.ruleName ∉ ["", "default", "all", "clean"]
  rules : ∀ c ∈ p.configurations, ∀ ending ∈ endings,
    c.ruleName ++ ending ∉ p.configurations.map Configuration.ruleName
  general : ∀ c ∈ p.configurations, ∀ ending ∈ "" :: endings,
    c.ruleName ++ ending ∉ p.configurations.map generalRule

variable {c c' : Configuration} {p : Project}

theorem ruleName_eq (c : Configuration) :
    c.ruleName = generalRule c ++ Configuration.targetName c.platform := by
  simp [Configuration.ruleName, generalRule, Configuration.targetName]

theorem ruleName_ofName (name : String) :
    (Configuration.ofName name).ruleName = Configuration.targetName name := by
  have hbar : Configuration.isTargetChar '|' = false := by decide
  cases hc : Text.cut? '|' name.toList with
  | none =>
    simp [Configuration.ruleName, Configuration.ofName, Configuration.splitName,
      Text.splitOnce?, hc]
  | some parts =>
    obtain ⟨before, after⟩ := parts
    have hname : name = String.ofList (before ++ '|' :: after) := by
      rw [← (Text.eq_of_cut? hc).1, String.ofList_toList]
    have hsplit : Configuration.splitName name = (String.ofList before, String.ofList after) := by
      simp [Configuration.splitName, Text.splitOnce?, hc]
    rw [Configuration.ruleName, Configuration.ofName, hsplit, hname]
    simp [Configuration.targetName, hbar]

theorem mem_family {target : String} : target ∈ family c ↔
    (∃ ending ∈ "" :: endings, target = c.ruleName ++ ending) ∨
      target = "clean." ++ c.ruleName := by
  simp [family, endings, or_assoc]

theorem ruleName_ne_append (c : Configuration) {ending : String} (he : ending ∈ endings) :
    c.ruleName ≠ c.ruleName ++ ending := by
  intro h
  have hlength := congrArg String.length h
  rw [String.length_append] at hlength
  have hpos : ∀ ending ∈ endings, 0 < ending.length := by decide
  have := hpos ending he
  omega

theorem append_ending_inj {a b : String} (ha : Consists Configuration.isTargetChar a)
    (hb : Consists Configuration.isTargetChar b) {e e' : String} (he : e ∈ endings)
    (he' : e' ∈ endings) (h : a ++ e = b ++ e') : a = b ∧ e = e' := by
  have hname : ∀ r : String, Consists Configuration.isTargetChar r → ∀ e ∈ endings,
      ∃ t : Target, t.Valid ∧ t.name = r ++ e ∧ t.owner? = some (.inl r) := by
    simp only [endings, List.forall_mem_cons]
    exact fun r hr => ⟨⟨.prebuild r, hr, rfl, rfl⟩, ⟨.build r, hr, rfl, rfl⟩,
      ⟨.stats r, hr, rfl, rfl⟩, by simp⟩
  obtain ⟨t, ht, hn, ho⟩ := hname a ha e he
  obtain ⟨t', ht', hn', ho'⟩ := hname b hb e' he'
  obtain rfl := Target.name_inj ht ht' (by rw [hn, hn', h])
  rw [ho] at ho'
  obtain rfl : a = b := by simpa using ho'
  exact ⟨rfl, String.append_right_inj a |>.1 h⟩

theorem consists_append_ending {a ending : String} (ha : Consists Configuration.isTargetChar a)
    (he : ending ∈ "" :: endings) : Consists Configuration.isTargetChar (a ++ ending) :=
  ha.append
    ((by decide : ∀ ending ∈ "" :: endings, Consists Configuration.isTargetChar ending) ending he)

theorem append_ne_clean {a b ending : String} (ha : Consists Configuration.isTargetChar a)
    (he : ending ∈ "" :: endings) : a ++ ending ≠ "clean." ++ b := by
  have hc := consists_append_ending ha he
  intro h
  rw [h, Consists.append_iff] at hc
  exact absurd hc.1 (by decide)

theorem nodup_family (c : Configuration) : (family c).Nodup := by
  have hr := consists_ruleName c
  have hendings : (endings.map (c.ruleName ++ ·)).Nodup :=
    (by decide : endings.Nodup).map fun _ _ h => (String.append_right_inj _).1 h
  rw [family, List.nodup_append', List.nodup_append']
  refine ⟨⟨List.nodup_singleton _, hendings, ?_⟩, List.nodup_singleton _, ?_⟩
  · rw [List.singleton_disjoint, List.mem_map]
    rintro ⟨ending, he, h⟩
    exact ruleName_ne_append c he h.symm
  · rw [List.disjoint_singleton, List.mem_append, List.mem_singleton, List.mem_map]
    rintro (h | ⟨ending, he, h⟩)
    · exact append_ne_clean hr List.mem_cons_self (String.append_empty.trans h.symm)
    · exact append_ne_clean hr (List.mem_cons_of_mem _ he) h

theorem disjoint_family_iff : (family c).Disjoint (family c') ↔ c.ruleName ≠ c'.ruleName ∧
    ∀ ending ∈ endings, c.ruleName ++ ending ≠ c'.ruleName ∧
      c'.ruleName ++ ending ≠ c.ruleName := by
  have hr := consists_ruleName c
  have hr' := consists_ruleName c'
  constructor
  · intro h
    refine ⟨fun heq => ?_, fun ending he => ⟨fun heq => ?_, fun heq => ?_⟩⟩
    · exact h (a := c.ruleName) (by simp [family]) (by simp [family, heq])
    · exact h (a := c'.ruleName) (by simp [family, ← heq, he]) (by simp [family])
    · exact h (a := c.ruleName) (by simp [family]) (by simp [family, ← heq, he])
  · rintro ⟨hne, hendings⟩ target ht ht'
    rw [mem_family] at ht ht'
    rcases ht with ⟨e, he, rfl⟩ | rfl <;> rcases ht' with ⟨e', he', h⟩ | h
    · rcases List.mem_cons.1 he with rfl | he <;> rcases List.mem_cons.1 he' with rfl | he'
      · exact hne (by simpa using h)
      · exact (hendings e' he').2 (by simpa using h.symm)
      · exact (hendings e he).1 (by simpa using h)
      · exact hne (append_ending_inj hr hr' he he' h).1
    · exact append_ne_clean hr he h
    · exact append_ne_clean hr' he' h.symm
    · exact hne ((String.append_right_inj _).1 h)

theorem append_notMem_fixed (rule : String) {ending : String} (he : ending ∈ endings) :
    rule ++ ending ∉ ["default", "all", "clean"] := by
  have hcapital : ∀ ending ∈ endings, ending.toList.any Char.isUpper = true := by decide
  have hfixed : ∀ name ∈ ["default", "all", "clean"], name.toList.any Char.isUpper = false := by
    decide
  intro hm
  have hnone := hfixed _ hm
  rw [String.toList_append, List.any_append, hcapital ending he, Bool.or_true] at hnone
  cases hnone

theorem mem_generalRules {name : String} :
    name ∈ generalRules p ↔ name ∈ p.configurations.map generalRule ∧ name ≠ "" := by
  simp [generalRules, Text.mem_sortedDistinct]

theorem clean_notMem_sharedTargets (rule : String) : "clean." ++ rule ∉ sharedTargets p := by
  have hdot : '.' ∈ ("clean." ++ rule).toList := by simp
  rw [sharedTargets, List.mem_append, not_or]
  constructor
  · have hfixed : ∀ name ∈ ["default", "all", "clean"], '.' ∉ name.toList := by decide
    exact fun hm => hfixed _ hm hdot
  · exact fun hm => (consists_of_mem_generalRules hm).1.notMem (by decide) hdot

theorem nodup_families_iff {l : List Configuration} : (l.flatMap family).Nodup ↔
    (l.map Configuration.ruleName).Nodup ∧
    ∀ c ∈ l, ∀ ending ∈ endings, c.ruleName ++ ending ∉ l.map Configuration.ruleName := by
  have hnodup : (l.flatMap family).Nodup ↔ l.Pairwise fun c c' => (family c).Disjoint (family c') :=
    List.nodup_flatMap.trans (and_iff_right fun c _ => nodup_family c)
  rw [hnodup, List.Nodup, List.pairwise_map]
  simp only [disjoint_family_iff, List.pairwise_and_iff]
  refine and_congr_right fun _ => ⟨fun h c hc ending he hm => ?_, fun h => ?_⟩
  · have hall := List.Pairwise.forall_of_forall_of_flip
      (fun c _ ending he => (ruleName_ne_append c he).symm) (h.imp fun hp e he => (hp e he).1)
      (h.imp fun hp e he => (hp e he).2)
    obtain ⟨c', hc', heq⟩ := List.mem_map.1 hm
    exact hall hc hc' ending he heq.symm
  · refine List.pairwise_of_forall_mem_list fun c hc c' hc' e he => ⟨fun heq => ?_, fun heq => ?_⟩
    · exact h c hc e he (heq ▸ List.mem_map_of_mem hc')
    · exact h c' hc' e he (heq ▸ List.mem_map_of_mem hc)

theorem disjoint_sharedTargets_iff : (family c).Disjoint (sharedTargets p) ↔
    c.ruleName ∉ ["default", "all", "clean"] ∧
    ∀ ending ∈ "" :: endings, c.ruleName ++ ending ∉ generalRules p := by
  constructor
  · intro h
    have hmem : ∀ ending ∈ "" :: endings, c.ruleName ++ ending ∉ sharedTargets p :=
      fun ending he => h (mem_family.2 (.inl ⟨ending, he, rfl⟩))
    constructor
    · have hrule := hmem "" List.mem_cons_self
      rw [String.append_empty] at hrule
      exact fun hm => hrule (List.mem_append_left _ hm)
    · exact fun ending he hm => hmem ending he (List.mem_append_right _ hm)
  · rintro ⟨hfixed, hgeneral⟩ target ht hs
    rcases mem_family.1 ht with ⟨ending, he, rfl⟩ | rfl
    · rcases List.mem_append.1 hs with hs | hs
      · rcases List.mem_cons.1 he with rfl | he
        · exact hfixed (by simpa using hs)
        · exact append_notMem_fixed _ he hs
      · exact hgeneral ending he hs
    · exact clean_notMem_sharedTargets _ hs

theorem separated_iff_distinguished (p : Project) : Separated p ↔ Distinguished p := by
  have hempty : ∀ c : Configuration, "" ∉ family c ↔ c.ruleName ≠ "" := by
    refine fun c => not_congr ⟨fun hm => ?_, fun h => by simp [family, h]⟩
    rcases mem_family.1 hm with ⟨ending, -, h⟩ | h
    · exact (String.append_eq_empty_iff.1 h.symm).1
    · exact absurd (String.append_eq_empty_iff.1 h.symm).1 (by decide)
  have hgeneral : ∀ {c : Configuration}, c.ruleName ≠ "" → ∀ ending,
      (c.ruleName ++ ending ∉ generalRules p ↔
        c.ruleName ++ ending ∉ p.configurations.map generalRule) := by
    intro c hc ending
    have hne : c.ruleName ++ ending ≠ "" := fun h => hc (String.append_eq_empty_iff.1 h).1
    rw [mem_generalRules, and_iff_left hne]
  constructor
  · rintro ⟨hne, hnodup, hdisjoint⟩
    obtain ⟨hnodup, hrules⟩ := nodup_families_iff.1 hnodup
    have hshared : ∀ c ∈ p.configurations, _ := fun c hc =>
      disjoint_sharedTargets_iff.1 (List.disjoint_of_subset_left
        (fun _ ht => List.mem_flatMap.2 ⟨c, hc, ht⟩) hdisjoint)
    refine ⟨hnodup, fun c hc => ?_, hrules, fun c hc ending he => ?_⟩
    · exact List.not_mem_cons_of_ne_of_not_mem ((hempty c).1 (hne c hc)) (hshared c hc).1
    · exact (hgeneral ((hempty c).1 (hne c hc)) ending).1 ((hshared c hc).2 ending he)
  · rintro ⟨hnodup, hfixed, hrules, hgenerals⟩
    have hne : ∀ c ∈ p.configurations, c.ruleName ≠ "" := fun c hc =>
      List.ne_of_not_mem_cons (hfixed c hc)
    refine ⟨fun c hc => (hempty c).2 (hne c hc), nodup_families_iff.2 ⟨hnodup, hrules⟩, ?_⟩
    intro target ht
    obtain ⟨c, hc, ht⟩ := List.mem_flatMap.1 ht
    refine disjoint_sharedTargets_iff.2 ⟨List.not_mem_of_not_mem_cons (hfixed c hc), ?_⟩ ht
    exact fun ending he => (hgeneral (hne c hc) ending).2 (hgenerals c hc ending he)

end Families

section Heads

def Statement.head? : Statement → Option (String × List String)
  | .group target fixed members => some (target, fixed ++ members)
  | .rule target prerequisites _ => some (target, prerequisites)
  | .object target source _ => some (target, [source])
  | _ => none

def heads (p : Project) : List (String × List String) := (statements p).filterMap Statement.head?

/-- The makefile has a target made from something. -/
def Needs (p : Project) (target prerequisite : String) : Prop :=
  ∃ head ∈ heads p, head.1 = target ∧ prerequisite ∈ head.2

def familyHeads (c : Configuration) (sources : List File) : List (String × List String) :=
  [(c.ruleName, [c.ruleName ++ "Prebuild", c.ruleName ++ "Build"]),
   (c.ruleName ++ "Prebuild", (headerTarget? sources).toList),
   (c.ruleName ++ "Build", [c.ruleName ++ "Stats"] ++
     if (product? c.type).isSome then [reference (objectsVariable c.ruleName)] else []),
   (c.ruleName ++ "Stats", []),
   ("clean." ++ c.ruleName, [])]

def fileHeads (c : Configuration) (sources : List File) : List (String × List String) :=
  (objectRules (directoryName c.intermediateDirectory) sources).filterMap Statement.head? ++
    (headerTarget? sources).toList.map (·, [])

def sharedHeads (p : Project) : List (String × List String) :=
  [("default", []), (".PHONY", ["default", "all", "clean"] ++ generalRules p),
    ("all", generalRules p), ("clean", [])] ++
  (generalRules p).map fun general => (general, membersOf p general)

theorem map_fst_familyHeads (c : Configuration) (sources : List File) :
    (familyHeads c sources).map Prod.fst = family c := rfl

theorem head?_prebuildRules (c : Configuration) (sources : List File) :
    (prebuildRules c sources).filterMap Statement.head? =
      (c.ruleName ++ "Prebuild", (headerTarget? sources).toList) ::
        (headerTarget? sources).toList.map (·, []) := by
  unfold prebuildRules headerTarget?
  cases sources.find? (·.precompiledHeader) <;> rfl

theorem head?_buildRules (c : Configuration) :
    (buildRules c).filterMap Statement.head? = [(c.ruleName ++ "Build", [c.ruleName ++ "Stats"] ++
      if (product? c.type).isSome then [reference (objectsVariable c.ruleName)] else [])] := by
  unfold buildRules targetRules currentValues
  cases c.type <;> rfl

theorem perm_heads_rulesFor (c : Configuration) (sources : List File) :
    ((rulesFor c sources).filterMap Statement.head?).Perm
      (familyHeads c sources ++ fileHeads c sources) := by
  have hrules : (rulesFor c sources).filterMap Statement.head? =
      [(c.ruleName ++ "Stats", [])] ++
      (objectRules (directoryName c.intermediateDirectory) sources).filterMap Statement.head? ++
      ((c.ruleName ++ "Prebuild", (headerTarget? sources).toList) ::
        (headerTarget? sources).toList.map (·, [])) ++
      [(c.ruleName ++ "Build", [c.ruleName ++ "Stats"] ++
        if (product? c.type).isSome then [reference (objectsVariable c.ruleName)] else [])] ++
      [(c.ruleName, [c.ruleName ++ "Prebuild", c.ruleName ++ "Build"]),
        ("clean." ++ c.ruleName, [])] := by
    rw [filterMap_rulesFor rfl, head?_prebuildRules, head?_buildRules]
    rfl
  rw [hrules, familyHeads, fileHeads, List.perm_iff_count]
  intro head
  simp only [List.count_append, List.count_cons, List.count_nil]
  omega

theorem heads_toplevel (p : Project) :
    (toplevel p).filterMap Statement.head? = sharedHeads p := by
  have hgroups : ((generalRules p).map fun general =>
      Statement.group general [] (membersOf p general)).filterMap Statement.head? =
      (generalRules p).map fun general => (general, membersOf p general) := by
    rw [List.filterMap_map, ← List.filterMap_eq_map]
    rfl
  rw [toplevel, List.filterMap_append, List.filterMap_append, hgroups, sharedHeads]
  exact List.append_nil _

theorem perm_heads (p : Project) : (heads p).Perm (sharedHeads p ++
    (p.configurations.flatMap fun c => familyHeads c (p.sourcesOf c)) ++
    p.configurations.flatMap fun c => fileHeads c (p.sourcesOf c)) := by
  have hglobals : (globals p).filterMap Statement.head? = [] := rfl
  have hrules := List.Perm.flatMap_left p.configurations fun c _ =>
    perm_heads_rulesFor c (p.sourcesOf c)
  have hsplit := hrules.trans (List.flatMap_append_perm _ _ _).symm
  rw [heads, statements, List.filterMap_append, List.filterMap_append, hglobals, heads_toplevel,
    List.nil_append, List.filterMap_flatMap, List.append_assoc]
  exact hsplit.append_left _

variable {c : Configuration} {sources : List File} {p : Project} {head : String × List String}
  {target prerequisite : String}

theorem mem_fileHeads (h : head ∈ fileHeads c sources) :
    (∃ base, head = (base ++ ".h.gch", [])) ∨
    ∃ directory stem, head.1 = directory ++ "/" ++ stem ++ ".o" := by
  rw [fileHeads, List.mem_append] at h
  rcases h with h | h
  · obtain ⟨s, hs, hh⟩ := List.mem_filterMap.1 h
    rw [objectRules, List.mem_append] at hs
    rcases hs with hs | hs
    · obtain ⟨pattern, -, rfl⟩ := List.mem_map.1 hs
      rw [patternRule, Statement.head?, Option.some.injEq] at hh
      subst hh
      exact .inr ⟨directoryName c.intermediateDirectory, "%", by simp [String.append_assoc]⟩
    · obtain ⟨f, -, rfl⟩ := List.mem_map.1 hs
      rw [fileRule, Statement.head?, Option.some.injEq] at hh
      subst hh
      exact .inr ⟨directoryName c.intermediateDirectory, f.stem, rfl⟩
  · obtain ⟨header, hm, rfl⟩ := List.mem_map.1 h
    obtain ⟨f, -, rfl⟩ := Option.map_eq_some_iff.1 (Option.mem_toList.1 hm)
    exact .inl ⟨_, rfl⟩

inductive IsLeaf : String → Prop
  | header (base : String) : IsLeaf (base ++ ".h.gch")
  | objects (name : String) : IsLeaf (reference name)

theorem IsLeaf.not_consists (h : IsLeaf target) : ¬ Consists Configuration.isTargetChar target := by
  intro hc
  cases h with
  | header base => exact absurd (Consists.append_iff.1 hc).2 (by decide)
  | objects name =>
    rw [reference, Consists.append_iff, Consists.append_iff] at hc
    exact absurd hc.1.1 (by decide)

theorem IsLeaf.getLast? (h : IsLeaf target) :
    target.toList.getLast? = some 'h' ∨ target.toList.getLast? = some ')' := by
  cases h with
  | header base => exact .inl (by simp)
  | objects name =>
    rw [reference, String.toList_append, List.getLast?_append]
    exact .inr rfl

theorem plain_of_mem_family (h : target ∈ family c) :
    '/' ∉ target.toList ∧ '$' ∉ target.toList ∧ target.toList.count '.' ≤ 1 := by
  have hr := consists_ruleName c
  have hslash : Configuration.isTargetChar '/' = false := by decide
  have hdollar : Configuration.isTargetChar '$' = false := by decide
  have hdot : Configuration.isTargetChar '.' = false := by decide
  rcases mem_family.1 h with ⟨ending, he, rfl⟩ | rfl
  · have hc := consists_append_ending hr he
    rw [List.count_eq_zero_of_not_mem (hc.notMem hdot)]
    exact ⟨hc.notMem hslash, hc.notMem hdollar, Nat.zero_le 1⟩
  · simp [hr.notMem hslash, hr.notMem hdollar, List.count_eq_zero_of_not_mem (hr.notMem hdot)]

theorem IsLeaf.notMem_family (h : IsLeaf target) : target ∉ family c := by
  intro hm
  obtain ⟨-, hdollar, hdots⟩ := plain_of_mem_family hm
  cases h with
  | header base =>
    rw [String.toList_append, List.count_append] at hdots
    have htwo : ".h.gch".toList.count '.' = 2 := by decide
    omega
  | objects name => exact hdollar (by simp [reference])

theorem mem_familyHeads (h : head ∈ familyHeads c sources) (hp : prerequisite ∈ head.2) :
    head.1 ∈ family c ∧ prerequisite ≠ head.1 ∧
    (prerequisite ∈ family c ∨ IsLeaf prerequisite) := by
  have hmem : head.1 ∈ family c := by
    rw [← map_fst_familyHeads c sources]
    exact List.mem_map_of_mem h
  have hending : ∀ ending ∈ endings, c.ruleName ++ ending ∈ family c :=
    fun ending he => mem_family.2 (.inl ⟨ending, List.mem_cons_of_mem _ he, rfl⟩)
  have hleaf : IsLeaf prerequisite → prerequisite ≠ head.1 := by
    rintro hl rfl
    exact hl.notMem_family hmem
  refine ⟨hmem, ?_⟩
  simp only [familyHeads, List.mem_cons, List.not_mem_nil, or_false] at h
  rcases h with rfl | rfl | rfl | rfl | rfl
  · simp only [List.mem_cons, List.not_mem_nil, or_false] at hp
    rcases hp with rfl | rfl
    · exact ⟨(ruleName_ne_append c (by decide)).symm, .inl (hending _ (by decide))⟩
    · exact ⟨(ruleName_ne_append c (by decide)).symm, .inl (hending _ (by decide))⟩
  · obtain ⟨f, -, rfl⟩ := Option.map_eq_some_iff.1 (Option.mem_toList.1 hp)
    exact ⟨hleaf (.header _), .inr (.header _)⟩
  · rcases List.mem_append.1 hp with hp | hp
    · rw [List.mem_singleton.1 hp]
      refine ⟨fun heq => ?_, .inl (hending _ (by decide))⟩
      exact absurd ((String.append_right_inj _).1 heq) (by decide)
    · split at hp
      · rw [List.mem_singleton.1 hp] at hleaf ⊢
        exact ⟨hleaf (.objects _), .inr (.objects _)⟩
      · cases hp
  · cases hp
  · cases hp

theorem Needs.cases (h : Needs p target prerequisite) :
    target = ".PHONY" ∨
    (target = "all" ∧ prerequisite ∈ generalRules p) ∨
    (target ∈ generalRules p ∧ prerequisite ∈ membersOf p target) ∨
    (∃ c ∈ p.configurations, target ∈ family c ∧ prerequisite ≠ target ∧
      (prerequisite ∈ family c ∨ IsLeaf prerequisite)) ∨
    ∃ directory stem, target = directory ++ "/" ++ stem ++ ".o" := by
  obtain ⟨head, hm, rfl, hp⟩ := h
  rw [(perm_heads p).mem_iff, List.mem_append, List.mem_append] at hm
  rcases hm with (hm | hm) | hm
  · rw [sharedHeads, List.mem_append] at hm
    rcases hm with hm | hm
    · simp only [List.mem_cons, List.not_mem_nil, or_false] at hm
      rcases hm with rfl | rfl | rfl | rfl
      · cases hp
      · exact .inl rfl
      · exact .inr (.inl ⟨rfl, hp⟩)
      · cases hp
    · obtain ⟨general, hg, rfl⟩ := List.mem_map.1 hm
      exact .inr (.inr (.inl ⟨hg, hp⟩))
  · obtain ⟨c, hc, hm⟩ := List.mem_flatMap.1 hm
    exact .inr (.inr (.inr (.inl ⟨c, hc, mem_familyHeads hm hp⟩)))
  · obtain ⟨c, -, hm⟩ := List.mem_flatMap.1 hm
    rcases mem_fileHeads hm with ⟨base, rfl⟩ | ho
    · cases hp
    · exact .inr (.inr (.inr (.inr ho)))

theorem mem_membersOf_self_iff {general : String} : general ∈ membersOf p general ↔
    ∃ c ∈ p.configurations, generalRule c = general ∧ Configuration.targetName c.platform = "" := by
  simp only [membersOf, List.mem_map, List.mem_filter, decide_eq_true_eq]
  constructor
  · rintro ⟨c, ⟨hc, rfl⟩, h⟩
    rw [ruleName_eq, String.append_eq_left_iff] at h
    exact ⟨c, hc, rfl, h⟩
  · rintro ⟨c, hc, rfl, h⟩
    exact ⟨c, ⟨hc, rfl⟩, by rw [ruleName_eq, h, String.append_empty]⟩

theorem needs_self_iff {general : String} (hg : general ∈ generalRules p) :
    Needs p general general ↔ general = "all" ∨
      ∃ c ∈ p.configurations, generalRule c = general ∧
        Configuration.targetName c.platform = "" := by
  have hc := (consists_of_mem_generalRules hg).1
  have hheads : ∀ head ∈ sharedHeads p, head ∈ heads p := fun head hm =>
    (perm_heads p).mem_iff.2 (List.mem_append_left _ (List.mem_append_left _ hm))
  constructor
  · intro h
    rcases h.cases with rfl | ⟨rfl, -⟩ | ⟨-, hm⟩ | ⟨c, -, -, hne, -⟩ | ⟨directory, stem, rfl⟩
    · exact absurd hc (by decide)
    · exact .inl rfl
    · exact .inr (mem_membersOf_self_iff.1 hm)
    · exact absurd rfl hne
    · exact absurd (by simp) (hc.notMem (c := '/') (by decide))
  · rintro (rfl | h)
    · exact ⟨("all", generalRules p), hheads _ (by simp [sharedHeads]), rfl, hg⟩
    · refine ⟨(general, membersOf p general), hheads _ ?_, rfl, mem_membersOf_self_iff.2 h⟩
      exact List.mem_append_right _ (List.mem_map_of_mem hg)

/-- What the targets of the families of a project are made from, directly or not. -/
def Below (p : Project) (target : String) : Prop :=
  (∃ c ∈ p.configurations, target ∈ family c) ∨ IsLeaf target

theorem phony_not_below : ¬ Below p ".PHONY" := by
  rintro (⟨c, -, ht⟩ | hl)
  · rcases mem_family.1 ht with ⟨ending, he, h⟩ | h
    · have hc := consists_append_ending (consists_ruleName c) he
      rw [← h] at hc
      exact absurd hc (by decide)
    · have hfirst := congrArg (fun s => s.toList.head?) h
      simp at hfirst
  · have hlast := hl.getLast?
    simp at hlast

theorem object_not_below (directory stem : String) :
    ¬ Below p (directory ++ "/" ++ stem ++ ".o") := by
  rintro (⟨c, -, ht⟩ | hl)
  · exact (plain_of_mem_family ht).1 (by simp)
  · have hlast := hl.getLast?
    rw [String.toList_append, List.getLast?_append] at hlast
    simp at hlast

theorem below_of_general_needs {general : String} (hg : general ∈ generalRules p)
    (hall : "all" ∉ generalRules p) (hn : Needs p general prerequisite) :
    Below p prerequisite := by
  have hc := (consists_of_mem_generalRules hg).1
  rcases hn.cases with rfl | ⟨rfl, -⟩ | ⟨-, hm⟩ | ⟨c, hc, -, -, hp⟩ | ⟨directory, stem, rfl⟩
  · exact absurd hc (by decide)
  · exact absurd hg hall
  · obtain ⟨c, hf, rfl⟩ := List.mem_map.1 hm
    exact .inl ⟨c, (List.mem_filter.1 hf).1, by simp [family]⟩
  · exact hp.imp_left fun hp => ⟨c, hc, hp⟩
  · exact absurd (by simp) (hc.notMem (c := '/') (by decide))

namespace Separated

variable (h : Separated p)

include h

theorem notMem_family (hs : target ∈ sharedTargets p) : ∀ c ∈ p.configurations,
    target ∉ family c :=
  fun c hc ht => h.disjoint (List.mem_flatMap.2 ⟨c, hc, ht⟩) hs

theorem not_below (hs : target ∈ sharedTargets p) : ¬ Below p target := by
  rintro (⟨c, hc, ht⟩ | hl)
  · exact h.notMem_family hs c hc ht
  · refine hl.not_consists ?_
    rcases List.mem_append.1 hs with hs | hs
    · exact (by decide : ∀ t ∈ ["default", "all", "clean"], Consists _ t) target hs
    · exact (consists_of_mem_generalRules hs).1

theorem below_of_needs (ht : Below p target) (hn : Needs p target prerequisite) :
    Below p prerequisite := by
  rcases hn.cases with rfl | ⟨rfl, -⟩ | ⟨hg, -⟩ | ⟨c, hc, -, -, hp⟩ | ⟨directory, stem, rfl⟩
  · exact absurd ht phony_not_below
  · exact absurd ht (h.not_below (by simp [sharedTargets]))
  · exact absurd ht (h.not_below (List.mem_append_right _ hg))
  · exact hp.imp_left fun hp => ⟨c, hc, hp⟩
  · exact absurd ht (object_not_below directory stem)

theorem needs_circle_iff : (∃ general ∈ generalRules p,
    Relation.TransGen (Needs p) general general) ↔ "all" ∈ generalRules p := by
  constructor
  · rintro ⟨general, hg, hcircle⟩
    by_contra hall
    have hbelow : ∀ {target}, Relation.TransGen (Needs p) general target → Below p target := by
      intro target ht
      induction ht with
      | single hn => exact below_of_general_needs hg hall hn
      | tail _ hn ih => exact h.below_of_needs ih hn
    exact h.not_below (List.mem_append_right _ hg) (hbelow hcircle)
  · intro hall
    exact ⟨"all", hall, .single ((needs_self_iff hall).2 (.inl rfl))⟩

theorem count_heads (hc : c ∈ p.configurations) (ht : target ∈ family c) :
    ((heads p).map Prod.fst).count target = 1 := by
  have hfamilies : (p.configurations.flatMap fun c =>
      familyHeads c (p.sourcesOf c)).map Prod.fst = p.configurations.flatMap family := by
    simp only [List.map_flatMap, map_fst_familyHeads]
  have hshared : target ∉ (sharedHeads p).map Prod.fst := by
    intro hm
    rw [sharedHeads, List.map_append, List.map_map, List.mem_append] at hm
    rcases hm with hm | hm
    · simp only [List.map_cons, List.map_nil, List.mem_cons, List.not_mem_nil, or_false] at hm
      rcases hm with rfl | rfl | rfl | rfl
      · exact h.notMem_family (by simp [sharedTargets]) c hc ht
      · exact phony_not_below (p := p) (.inl ⟨c, hc, ht⟩)
      · exact h.notMem_family (by simp [sharedTargets]) c hc ht
      · exact h.notMem_family (by simp [sharedTargets]) c hc ht
    · obtain ⟨general, hg, rfl⟩ := List.mem_map.1 hm
      exact h.notMem_family (List.mem_append_right _ hg) c hc ht
  have hfiles : target ∉ (p.configurations.flatMap fun c =>
      fileHeads c (p.sourcesOf c)).map Prod.fst := by
    intro hm
    obtain ⟨head, hh, rfl⟩ := List.mem_map.1 hm
    obtain ⟨c', -, hh⟩ := List.mem_flatMap.1 hh
    rcases mem_fileHeads hh with ⟨base, rfl⟩ | ⟨directory, stem, ho⟩
    · exact (IsLeaf.header base).notMem_family ht
    · exact object_not_below (p := p) directory stem (.inl ⟨c, hc, ho ▸ ht⟩)
  have hone : (p.configurations.flatMap family).count target = 1 :=
    List.count_eq_one_of_mem h.nodup (List.mem_flatMap.2 ⟨c, hc, ht⟩)
  rw [((perm_heads p).map Prod.fst).count_eq, List.map_append, List.map_append, List.count_append,
    List.count_append, hfamilies, hone, List.count_eq_zero_of_not_mem hshared,
    List.count_eq_zero_of_not_mem hfiles]

end Separated

end Heads

section Projects

def listVariables (p : Project) : List String :=
  p.configurations.flatMap fun c => [sourcesVariable c.ruleName, objectsVariable c.ruleName]

theorem nodup_listVariables_iff (p : Project) :
    (listVariables p).Nodup ↔ (p.configurations.map Configuration.ruleName).Nodup := by
  have hpair : ∀ c c' : Configuration,
      ([sourcesVariable c.ruleName, objectsVariable c.ruleName]).Disjoint
        [sourcesVariable c'.ruleName, objectsVariable c'.ruleName] ↔ c.ruleName ≠ c'.ruleName := by
    intro c c'
    constructor
    · intro h heq
      exact h (a := sourcesVariable c.ruleName) (by simp) (by simp [heq])
    · intro hne name hm hm'
      simp only [List.mem_cons, List.not_mem_nil, or_false] at hm hm'
      rcases hm with rfl | rfl <;> rcases hm' with h | h
      · exact hne (sourcesVariable_inj h)
      · exact sourcesVariable_ne_objectsVariable _ _ h
      · exact sourcesVariable_ne_objectsVariable _ _ h.symm
      · exact hne (objectsVariable_inj h)
  have hown : ∀ c : Configuration,
      [sourcesVariable c.ruleName, objectsVariable c.ruleName].Nodup := by
    simp [sourcesVariable_ne_objectsVariable]
  rw [listVariables, List.nodup_flatMap, and_iff_right fun c _ => hown c, List.Nodup,
    List.pairwise_map]
  exact ⟨fun h => h.imp (hpair _ _).1, fun h => h.imp (hpair _ _).2⟩

/-- The families of a project are separate exactly if the names of its rules are told apart, also
with the endings that a family adds; the names of rules are what of the composite names can stand in
a target. Each target of separate families has one statement, each list of files and objects one
variable, and the rules for all platforms depend on themselves only through the rule that stands for
all. -/
theorem families_separated_iff (p : Project) :
    (Separated p ↔ Distinguished p) ∧
    (∀ names : List String, p.configurations = names.map Configuration.ofName →
      p.configurations.map Configuration.ruleName = names.map Configuration.targetName) ∧
    ((listVariables p).Nodup ↔ (p.configurations.map Configuration.ruleName).Nodup) ∧
    (∀ general ∈ generalRules p, (Needs p general general ↔ general = "all" ∨
      ∃ c ∈ p.configurations, generalRule c = general ∧
        Configuration.targetName c.platform = "")) ∧
    (Separated p →
      (∀ c ∈ p.configurations, ∀ target ∈ family c,
        ((heads p).map Prod.fst).count target = 1) ∧
      ((∃ general ∈ generalRules p, Relation.TransGen (Needs p) general general) ↔
        "all" ∈ generalRules p)) := by
  refine ⟨separated_iff_distinguished p, fun names hp => ?_, nodup_listVariables_iff p,
    fun general hg => needs_self_iff hg, fun h => ⟨fun c hc target ht => ?_, ?_⟩⟩
  · rw [hp, List.map_map]
    exact List.map_congr_left fun name _ => ruleName_ofName name
  · exact h.count_heads hc ht
  · exact h.needs_circle_iff

theorem distinguished_sharedHeader : Distinguished sharedHeader :=
  ⟨by decide +kernel, by decide +kernel, by decide +kernel, by decide +kernel⟩

theorem families_separated_iff_shared : Separated sharedHeader ∧
    ∀ c ∈ sharedHeader.configurations, ∀ target ∈ family c,
      ((heads sharedHeader).map Prod.fst).count target = 1 := by
  have hseparated := (families_separated_iff sharedHeader).1.2 distinguished_sharedHeader
  exact ⟨hseparated, ((families_separated_iff sharedHeader).2.2.2.2 hseparated).1⟩

/-- A project of three configurations. A blank tells two of them apart, and the third names no
platform. -/
def clashing : Project :=
  { name := "App"
    path := "App.vcproj"
    directory := "/work"
    configurations := ["Debug DLL|Win32", "DebugDLL|Win32", "Debug"].map Configuration.ofName }

theorem families_clash : (clashing.configurations.map Configuration.name).Nodup ∧
    (clashing.configurations.map Configuration.ruleName) =
      ["DebugDLLWin32", "DebugDLLWin32", "Debug"] ∧
    ¬ (clashing.configurations.flatMap family).Nodup ∧
    ¬ (clashing.configurations.flatMap family).Disjoint (generalRules clashing) ∧
    ¬ (listVariables clashing).Nodup ∧
    "Debug" ∈ generalRules clashing ∧ Needs clashing "Debug" "Debug" := by
  have hrules : clashing.configurations.map Configuration.ruleName =
      ["DebugDLLWin32", "DebugDLLWin32", "Debug"] := by decide +kernel
  have hdebug : "Debug" ∈ generalRules clashing := mem_generalRules.2 (by decide +kernel)
  have hfamily : "Debug" ∈ clashing.configurations.flatMap family := by decide +kernel
  have hself : ∃ c ∈ clashing.configurations, generalRule c = "Debug" ∧
      Configuration.targetName c.platform = "" := by decide +kernel
  refine ⟨by decide +kernel, hrules, ?_, fun h => h hfamily hdebug, ?_, hdebug, ?_⟩
  · rw [nodup_families_iff, hrules]
    exact fun h => absurd h.1 (by decide)
  · rw [nodup_listVariables_iff, hrules]
    decide
  · exact (needs_self_iff hdebug).2 (.inr hself)

end Projects

end StudioMake.Makefile
