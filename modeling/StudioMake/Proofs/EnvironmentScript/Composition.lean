import StudioMake.Proofs.EnvironmentScript.Assignments

/-!
# Scripts one after the other

The variables of a script keep the spelling of their first assignment, and scripts that are added
one after the other are merged by spelling. Where a name is spelled in several ways, a macro takes
its value from the spelling that came up last, so the scripts compose to one script exactly if the
last assignment is also the last one under that spelling.
-/

set_option autoImplicit false

namespace StudioMake.Seeds

open MacroTable EnvironmentScript

variable {environment : Variables} {name : String} {scripts : List String}
  {l : List (String × String)}

def addScripts (environment : Variables) (s : Seeds) (scripts : List String) : Seeds :=
  scripts.foldl (addScript environment) s

def usesOf (name : String) (scripts : List String) : List (String × String) :=
  scripts.filterMap fun s => use? name (assignments s)

theorem usesOf_eq (name : String) (scripts : List String) :
    usesOf name scripts = (scripts.map assignments).filterMap (use? name) := by
  rw [List.filterMap_map]
  rfl

/-- The spelling that came up last. -/
def newest? (l : List (String × String)) : Option String := (l.map Prod.fst).eraseDups.getLast?

/-- The value that was last given under the spelling that came up last. -/
def underNewest? (l : List (String × String)) : Option String :=
  (newest? l).bind fun spelling => OrderedMap.lastUnder? spelling l

section Uses

theorem lastFor?_eq (name : String) (l : List (String × String)) : lastFor? name l =
    (l.filter fun a => Text.sameIgnoringCase a.1 name).getLast?.map Prod.snd := by
  induction l with
  | nil => rfl
  | cons a l ih =>
    cases hs : Text.sameIgnoringCase a.1 name with
    | false => rw [lastFor?_cons_of_not_same hs, ih, List.filter_cons_of_neg (by simp [hs])]
    | true =>
      rw [lastFor?_cons_of_same hs, ih, List.filter_cons_of_pos (by simp [hs]), List.getLast?_cons]
      cases (l.filter fun a => Text.sameIgnoringCase a.1 name).getLast? <;> rfl

theorem map_snd_use? (name : String) (l : List (String × String)) :
    (use? name l).map Prod.snd = lastFor? name l := by
  induction l with
  | nil => rfl
  | cons a l ih =>
    cases hs : Text.sameIgnoringCase a.1 name with
    | false => rw [use?_cons_of_not_same hs, lastFor?_cons_of_not_same hs, ih]
    | true => rw [use?_cons_of_same hs, lastFor?_cons_of_same hs]; rfl

/-- The last assignment of all is the last one of the last script that has any. -/
theorem lastFor?_flatMap (name : String) (scripts : List String) :
    lastFor? name (scripts.flatMap assignments) =
      (usesOf name scripts).getLast?.map Prod.snd := by
  induction scripts with
  | nil => rfl
  | cons s scripts ih =>
    rw [List.flatMap_cons, lastFor?, lastSome?_append, ← lastFor?, ← lastFor?, ih, usesOf, usesOf,
      List.filterMap_cons, ← map_snd_use?]
    cases use? name (assignments s) with
    | none => rw [Option.map_none, Option.or_none]
    | some use =>
      rw [List.getLast?_cons]
      cases (scripts.filterMap fun s => use? name (assignments s)).getLast? <;> rfl

theorem lastUnder?_concat (l : List (String × String)) (use : String × String) :
    OrderedMap.lastUnder? use.1 (l ++ [use]) = some use.2 := by
  rw [OrderedMap.lastUnder?, lastSome?_append]
  simp [lastSome?]

theorem underNewest?_of_newest? (h : newest? l = l.getLast?.map Prod.fst) :
    underNewest? l = l.getLast?.map Prod.snd := by
  rw [underNewest?, h]
  rcases List.eq_nil_or_concat' l with rfl | ⟨l, use, rfl⟩
  · rfl
  · rw [List.getLast?_concat, Option.map_some, Option.bind_some, lastUnder?_concat, Option.map_some]

theorem underNewest?_eq_none_iff : underNewest? l = none ↔ l.getLast?.map Prod.snd = none := by
  rw [underNewest?, newest?, ← OrderedMap.getLast?_ofList, Option.map_eq_none_iff,
    Option.map_eq_none_iff, List.getLast?_eq_none_iff, List.getLast?_eq_none_iff]
  rw [← List.map_eq_nil_iff (f := Prod.fst), ← OrderedMap.keys, OrderedMap.keys_ofList]
  constructor
  · intro h
    rcases l with - | ⟨use, l⟩
    · rfl
    · rw [List.map_cons, List.eraseDups_cons] at h
      exact absurd h (List.cons_ne_nil _ _)
  · rintro rfl
    rfl

theorem getD_underNewest?_eq_iff (name : String) (scripts : List String) :
    (underNewest? (usesOf name scripts)).getD "" =
        (lastFor? name (scripts.flatMap assignments)).getD "" ↔
      underNewest? (usesOf name scripts) = lastFor? name (scripts.flatMap assignments) := by
  have hnone := underNewest?_eq_none_iff (l := usesOf name scripts)
  rw [← lastFor?_flatMap] at hnone
  generalize underNewest? (usesOf name scripts) = newest at hnone ⊢
  generalize lastFor? name (scripts.flatMap assignments) = last at hnone ⊢
  cases newest with
  | none =>
    rw [hnone.1 rfl]
    exact iff_of_true rfl rfl
  | some value =>
    cases last with
    | none => exact absurd (hnone.2 rfl) (Option.some_ne_none value)
    | some other => rw [Option.getD_some, Option.getD_some, Option.some_inj]

end Uses

section Adding

theorem definitions_addScripts (environment : Variables) (s : Seeds) (scripts : List String) :
    (addScripts environment s scripts).definitions = s.definitions := by
  induction scripts generalizing s with
  | nil => rfl
  | cons script scripts ih => exact ih (s.addScript environment script)

theorem assigned_addScripts (environment : Variables) (s : Seeds) (scripts : List String) :
    (addScripts environment s scripts).assigned =
      s.assigned.insertAll (scripts.flatMap fun script => (read environment script).toList) := by
  induction scripts generalizing s with
  | nil => rfl
  | cons script scripts ih =>
    rw [List.flatMap_cons, OrderedMap.insertAll_append]
    exact ih (s.addScript environment script)

theorem filter_assigned (h : ∀ s ∈ scripts, Literal (assignments s)) (name : String) :
    (addScripts environment {} scripts).assigned.toList.filter
        (fun entry => Text.sameIgnoringCase entry.1 name) =
      (OrderedMap.ofList (usesOf name scripts)).toList := by
  have huse : ∀ s ∈ scripts,
      (read environment s).toList.filter (fun entry => Text.sameIgnoringCase entry.1 name) =
        (use? name (assignments s)).toList := by
    intro s hs
    rw [filter_sameIgnoringCase (distinct_read environment s), findIgnoringCase?_read (h s hs)]
  have hempty : (∅ : Variables).insertAll
      (scripts.flatMap fun script => (read environment script).toList) =
        .ofList (scripts.flatMap fun script => (read environment script).toList) := rfl
  rw [assigned_addScripts, hempty,
    OrderedMap.filter_ofList fun key => Text.sameIgnoringCase key name, List.filter_flatMap, usesOf,
    List.filterMap_eq_flatMap_toList]
  rw [List.flatMap_congr huse]

theorem lastFor?_assigned (h : ∀ s ∈ scripts, Literal (assignments s)) (name : String) :
    lastFor? name (addScripts environment {} scripts).assigned.toList =
      underNewest? (usesOf name scripts) := by
  rw [lastFor?_eq, filter_assigned h, OrderedMap.getLast?_ofList]
  rfl

end Adding

section Composing

variable {format : Format}

theorem get?_macros_addScripts (h : ∀ s ∈ scripts, Literal (assignments s))
    (hn : name ∈ vocabulary format) :
    ((addScripts environment {} scripts).macros format).get? name =
      some ((underNewest? (usesOf name scripts)).getD "") := by
  rw [get?_macros (definitions_addScripts environment {} scripts) hn, lastFor?_assigned h]

theorem underNewest?_singleton (name s : String) :
    underNewest? (usesOf name [s]) = lastFor? name (assignments s) := by
  rw [← map_snd_use?, usesOf, List.filterMap_cons]
  cases use? name (assignments s) with
  | none => rfl
  | some use => exact underNewest?_of_newest? rfl

theorem get?_macros_join (hlines : ∀ s ∈ scripts, ∃ body, s = body ++ "\n")
    (h : ∀ s ∈ scripts, Literal (assignments s)) (hn : name ∈ vocabulary format) :
    ((addScript environment {} (String.join scripts)).macros format).get? name =
      some ((lastFor? name (scripts.flatMap assignments)).getD "") := by
  have hjoin := assignments_join hlines
  have hall : ∀ s ∈ [String.join scripts], Literal (assignments s) := by
    intro s hs a ha
    rw [List.mem_singleton.1 hs, hjoin] at ha
    obtain ⟨script, hscript, ha⟩ := List.mem_flatMap.1 ha
    exact h script hscript a ha
  have hone : addScript environment {} (String.join scripts) =
      addScripts environment {} [String.join scripts] := rfl
  rw [← hjoin, ← underNewest?_singleton, hone]
  exact get?_macros_addScripts hall hn

/-- Scripts that are added one after the other give a macro the value of the last assignment to its
newest spelling, and as one script that of the last assignment under any spelling. So they compose
exactly if the two are the same for every macro, in particular if the last script that assigns a
macro has its newest spelling. -/
theorem scripts_compose_iff (environment : Variables) (scripts : List String) (format : Format)
    (hlines : ∀ s ∈ scripts, ∃ body, s = body ++ "\n")
    (hliteral : ∀ s ∈ scripts, Literal (assignments s)) :
    (∀ name ∈ vocabulary format,
      ((addScripts environment {} scripts).macros format).get? name =
        some ((underNewest? (usesOf name scripts)).getD "") ∧
      ((addScript environment {} (String.join scripts)).macros format).get? name =
        some ((lastFor? name (scripts.flatMap assignments)).getD "")) ∧
    ((addScripts environment {} scripts).macros format =
        (addScript environment {} (String.join scripts)).macros format ↔
      ∀ name ∈ vocabulary format,
        underNewest? (usesOf name scripts) = lastFor? name (scripts.flatMap assignments)) ∧
    ((∀ name ∈ vocabulary format,
        newest? (usesOf name scripts) = (usesOf name scripts).getLast?.map Prod.fst) →
      (addScripts environment {} scripts).macros format =
        (addScript environment {} (String.join scripts)).macros format) := by
  have hcompose : (addScripts environment {} scripts).macros format =
      (addScript environment {} (String.join scripts)).macros format ↔
        ∀ name ∈ vocabulary format,
          underNewest? (usesOf name scripts) = lastFor? name (scripts.flatMap assignments) := by
    rw [macros_eq_iff (definitions_addScripts environment {} scripts) rfl]
    refine forall₂_congr fun name hn => ?_
    rw [get?_macros_addScripts hliteral hn, get?_macros_join hlines hliteral hn, Option.some_inj]
    exact getD_underNewest?_eq_iff name scripts
  refine ⟨fun name hn => ⟨get?_macros_addScripts hliteral hn,
    get?_macros_join hlines hliteral hn⟩, hcompose, fun h => hcompose.2 fun name hn => ?_⟩
  rw [lastFor?_flatMap]
  exact underNewest?_of_newest? (h name hn)

theorem scripts_compose_iff_respelled :
    let scripts := ["@SET VCInstallDir=a\nset OUTDIR=o\n", "SET VCINSTALLDIR=b\n"]
    (∀ s ∈ scripts, ∃ body, s = body ++ "\n") ∧
      (∀ s ∈ scripts, Literal (assignments s)) ∧
      (addScripts ∅ {} scripts).macros .vcproj =
        (addScript ∅ {} (String.join scripts)).macros .vcproj ∧
      ((addScripts ∅ {} scripts).macros .vcproj).get? "VCInstallDir" = some "b" := by
  intro scripts
  have hread : scripts.map assignments =
      [[("VCInstallDir", "a"), ("OUTDIR", "o")], [("VCINSTALLDIR", "b")]] := by decide +kernel
  have hlines : ∀ s ∈ scripts, ∃ body, s = body ++ "\n" := by
    intro s hs
    rw [List.mem_pair] at hs
    rcases hs with rfl | rfl
    · exact ⟨"@SET VCInstallDir=a\nset OUTDIR=o", by decide⟩
    · exact ⟨"SET VCINSTALLDIR=b", by decide⟩
  have hliteral : ∀ s ∈ scripts, Literal (assignments s) := by
    rw [← List.forall_mem_map (P := Literal), hread]
    decide
  have h := scripts_compose_iff ∅ scripts .vcproj hlines hliteral
  refine ⟨hlines, hliteral, h.2.2 ?_, ?_⟩
  · simp only [usesOf_eq, hread]
    decide +kernel
  · rw [(h.1 "VCInstallDir" (by decide +kernel)).1, usesOf_eq, hread]
    decide +kernel

/-- A spelling that comes up again counts less than one that came up after it. -/
theorem scripts_do_not_compose :
    let scripts := ["SET VCInstallDir=a\n", "SET VCINSTALLDIR=b\n", "SET VCInstallDir=c\n"]
    (∀ s ∈ scripts, ∃ body, s = body ++ "\n") ∧
      (∀ s ∈ scripts, Literal (assignments s)) ∧
      lastFor? "VCInstallDir" (scripts.flatMap assignments) = some "c" ∧
      ((addScripts ∅ {} scripts).macros .vcproj).get? "VCInstallDir" = some "b" ∧
      ((addScript ∅ {} (String.join scripts)).macros .vcproj).get? "VCInstallDir" = some "c" := by
  intro scripts
  have hread : scripts.map assignments =
      [[("VCInstallDir", "a")], [("VCINSTALLDIR", "b")], [("VCInstallDir", "c")]] := by
    decide +kernel
  have hlines : ∀ s ∈ scripts, ∃ body, s = body ++ "\n" := by
    intro s hs
    rw [List.mem_cons, List.mem_pair] at hs
    rcases hs with rfl | rfl | rfl
    · exact ⟨"SET VCInstallDir=a", by decide⟩
    · exact ⟨"SET VCINSTALLDIR=b", by decide⟩
    · exact ⟨"SET VCInstallDir=c", by decide⟩
  have hliteral : ∀ s ∈ scripts, Literal (assignments s) := by
    rw [← List.forall_mem_map (P := Literal), hread]
    decide
  have hlast : lastFor? "VCInstallDir" (scripts.flatMap assignments) = some "c" := by
    rw [List.flatMap_def, hread]
    decide +kernel
  have hn : "VCInstallDir" ∈ vocabulary .vcproj := by decide +kernel
  refine ⟨hlines, hliteral, hlast, ?_, ?_⟩
  · rw [get?_macros_addScripts hliteral hn, usesOf_eq, hread]
    decide +kernel
  · rw [get?_macros_join hlines hliteral hn, hlast, Option.getD_some]

end Composing

end StudioMake.Seeds
