import Mathlib.Data.List.TakeWhile
import StudioMake.Proofs.EnvironmentScript.Assignments
import StudioMake.Proofs.Text.Entries
import StudioMake.Proofs.Text.LetterCase

/-!
# Scripts written and read back

Variables are written as a script with one `SET` statement for each, its name and value in quotes.
Reading the script gives them back in the same order, whatever stands in its other lines: the
quotes keep the blanks and quotes of a value, and the name ends at the first equals sign.
-/

set_option autoImplicit false

namespace StudioMake.EnvironmentScript

open Text

/-- A line that holds a `SET` statement: behind blanks and perhaps an at sign the keyword, blanks,
and something that is no switch. -/
def IsSetStatement (line : String) : Prop :=
  ∃ lead mark keyword gap first rest,
    line.toList = lead ++ mark ++ keyword ++ gap ++ first :: rest ∧
      (∀ c ∈ lead, isBlank c = true) ∧ (mark = [] ∨ mark = ['@']) ∧
      sameIgnoringCase (String.ofList keyword) "set" = true ∧
      gap ≠ [] ∧ (∀ c ∈ gap, isBlank c = true) ∧ isBlank first = false ∧ first ≠ '/'

section Statements

variable {line : String} {lead mark keyword gap rest : List Char} {first : Char}

theorem exists_of_keyword (h : sameIgnoringCase (String.ofList keyword) "set" = true) :
    ∃ c₁ c₂ c₃, keyword = [c₁, c₂, c₃] ∧ isBlank c₁ = false ∧ c₁ ≠ '@' := by
  rw [sameIgnoringCase_iff_alike, String.toList_ofList] at h
  have hset : "set".toList = ['s', 'e', 't'] := rfl
  rw [hset] at h
  cases h with
  | cons h₁ h =>
    cases h with
    | cons h₂ h =>
      cases h with
      | cons h₃ h =>
        cases h
        refine ⟨_, _, _, rfl, ?_, ?_⟩
        · rw [isBlank_eq h₁]
          decide
        · rw [ne_eq, eq_iff_eq h₁ (by decide)]
          decide

theorem after_mark (hmark : mark = [] ∨ mark = ['@']) (h : first ≠ '@') (rest : List Char) :
    (if (mark ++ first :: rest).head? = some '@' then (mark ++ first :: rest).tail
      else mark ++ first :: rest) = first :: rest := by
  rcases hmark with rfl | rfl <;> simp [h]

theorem statementBody?_eq (hlead : ∀ c ∈ lead, isBlank c = true) (hmark : mark = [] ∨ mark = ['@'])
    (hkeyword : sameIgnoringCase (String.ofList keyword) "set" = true) (hgap : gap ≠ [])
    (hblank : ∀ c ∈ gap, isBlank c = true) (hfirst : isBlank first = false) (hne : first ≠ '/') :
    statementBody? (String.ofList (lead ++ mark ++ keyword ++ gap ++ first :: rest)) =
      some (gap ++ first :: dropEndWhile isBlank rest) := by
  obtain ⟨c₁, c₂, c₃, rfl, hc, hat⟩ := exists_of_keyword hkeyword
  obtain ⟨blank, gap, rfl⟩ := List.exists_cons_of_ne_nil hgap
  have hdrop : (lead ++ mark ++ [c₁, c₂, c₃] ++ blank :: gap ++ first :: rest).dropWhile isBlank =
      mark ++ [c₁, c₂, c₃] ++ blank :: gap ++ first :: rest := by
    simp only [List.append_assoc]
    rw [List.dropWhile_append_of_pos hlead]
    rcases hmark with rfl | rfl
    · exact List.dropWhile_cons_of_neg (by simp [hc])
    · exact List.dropWhile_cons_of_neg (by decide)
  have htrim : (trim (String.ofList
      (lead ++ mark ++ [c₁, c₂, c₃] ++ blank :: gap ++ first :: rest))).toList =
      mark ++ c₁ :: c₂ :: c₃ :: blank :: (gap ++ first :: dropEndWhile isBlank rest) := by
    rw [toList_trim, String.toList_ofList, hdrop, dropEndWhile_append_cons hfirst]
    simp
  have hbody : ((blank :: (gap ++ first :: dropEndWhile isBlank rest)).dropWhile isBlank).head? =
      some first := by
    rw [← List.cons_append, List.dropWhile_append_of_pos hblank,
      List.dropWhile_cons_of_neg (by simp [hfirst])]
    rfl
  have hb : isBlank blank = true := hblank blank List.mem_cons_self
  rw [statementBody?]
  simp only [htrim, after_mark hmark hat, hkeyword, hbody]
  simp [hb, hne]

theorem exists_gap {body : List Char} (h : body.head?.any isBlank = true)
    (hlast : ∀ c, body.getLast? = some c → isBlank c = false) :
    ∃ gap first rest, body = gap ++ first :: rest ∧ gap ≠ [] ∧ (∀ c ∈ gap, isBlank c = true) ∧
      isBlank first = false ∧ (body.dropWhile isBlank).head? = some first := by
  cases hd : body.dropWhile isBlank with
  | nil =>
    rw [List.dropWhile_eq_nil_iff] at hd
    rcases List.eq_nil_or_concat' body with rfl | ⟨front, c, rfl⟩
    · cases h
    · have hc := hd c (by simp)
      rw [hlast c (by simp)] at hc
      cases hc
  | cons first rest =>
    have hfirst := List.head?_dropWhile_not isBlank body
    rw [hd] at hfirst
    refine ⟨body.takeWhile isBlank, first, rest, ?_, ?_, List.all_eq_true.1 List.all_takeWhile,
      hfirst, rfl⟩
    · rw [← hd, List.takeWhile_append_dropWhile]
    · cases body with
      | nil => cases h
      | cons blank body =>
        have hblank : isBlank blank = true := h
        rw [List.takeWhile_cons_of_pos hblank]
        exact List.cons_ne_nil _ _

theorem isSome_statementBody?_iff : (statementBody? line).isSome = true ↔ IsSetStatement line := by
  constructor
  · intro h
    obtain ⟨lead, trail, hline, hlead, -⟩ := exists_toList_eq_trim line
    have hlast := fun c => isBlank_of_getLast?_trim (c := c) (s := line)
    unfold statementBody? at h
    generalize (trim line).toList = trimmed at hline hlast h
    dsimp only at h
    obtain ⟨mark, after, hmark, rfl, hafter⟩ : ∃ mark after, (mark = [] ∨ mark = ['@']) ∧
        trimmed = mark ++ after ∧
          (if trimmed.head? = some '@' then trimmed.tail else trimmed) = after := by
      by_cases hat : trimmed.head? = some '@'
      · rw [if_pos hat]
        exact ⟨['@'], trimmed.tail, .inr rfl, (List.cons_head?_tail hat).symm, rfl⟩
      · rw [if_neg hat]
        exact ⟨[], trimmed, .inl rfl, rfl, rfl⟩
    rw [hafter] at h
    split at h
    · next c₁ c₂ c₃ body =>
      split at h
      · next hc =>
        simp only [Bool.and_eq_true, decide_eq_true_eq] at hc
        obtain ⟨⟨hkeyword, hblank⟩, hne⟩ := hc
        obtain ⟨gap, first, rest, rfl, hgap, hgapBlank, hfirst, hhead⟩ :=
          exists_gap hblank fun c hc => hlast c (by
            rw [List.getLast?_append, List.getLast?_cons, List.getLast?_cons,
              List.getLast?_cons, hc]
            rfl)
        rw [hhead] at hne
        refine ⟨lead, mark, [c₁, c₂, c₃], gap, first, rest ++ trail, ?_, hlead, hmark, hkeyword,
          hgap, hgapBlank, hfirst, fun he => hne (he ▸ rfl)⟩
        rw [hline]
        simp
      · cases h
    · cases h
  · rintro ⟨lead, mark, keyword, gap, first, rest, hline, hlead, hmark, hkeyword, hgap, hblank,
      hfirst, hne⟩
    rw [← String.ofList_toList (s := line), hline,
      statementBody?_eq hlead hmark hkeyword hgap hblank hfirst hne]
    rfl

instance (line : String) : Decidable (IsSetStatement line) :=
  decidable_of_iff _ isSome_statementBody?_iff

theorem assignment?_of_not (h : ¬ IsSetStatement line) : assignment? line = none := by
  rw [← isSome_statementBody?_iff, Bool.not_eq_true, Option.isSome_eq_false_iff,
    Option.isNone_iff_eq_none] at h
  rw [assignment?, h]
  rfl

end Statements

/-- A variable that a line can hold. -/
structure Writable (name value : String) : Prop where
  name_ne_empty : name ≠ ""
  trim_name : trim name = name
  no_equals : '=' ∉ name.toList
  no_newline : '\n' ∉ name.toList ∧ '\n' ∉ value.toList
  no_percent : '%' ∉ value.toList

instance (name value : String) : Decidable (Writable name value) :=
  decidable_of_iff (name ≠ "" ∧ trim name = name ∧ '=' ∉ name.toList ∧
      ('\n' ∉ name.toList ∧ '\n' ∉ value.toList) ∧ '%' ∉ value.toList)
    ⟨fun ⟨h₁, h₂, h₃, h₄, h₅⟩ => ⟨h₁, h₂, h₃, h₄, h₅⟩,
      fun ⟨h₁, h₂, h₃, h₄, h₅⟩ => ⟨h₁, h₂, h₃, h₄, h₅⟩⟩

/-- The statement that assigns a variable, behind an optional at sign and before an optional
carriage return. -/
def statementLine (mark keyword name value ending : String) : String :=
  mark ++ keyword ++ " \"" ++ name ++ "=" ++ value ++ "\"" ++ ending

/-- The lines of a script that writes variables in order: one statement for each, and between them
lines that hold no statement. -/
inductive Writes : List (String × String) → List String → Prop where
  | nil : Writes [] []
  | other {l : List (String × String)} {lines : List String} (line : String)
      (hline : ¬ IsSetStatement line) (hn : '\n' ∉ line.toList) (h : Writes l lines) :
      Writes l (line :: lines)
  | statement {l : List (String × String)} {lines : List String}
      (mark keyword name value ending : String) (hmark : mark = "" ∨ mark = "@")
      (hkeyword : sameIgnoringCase keyword "set" = true) (hending : ending = "" ∨ ending = "\r")
      (h : Writes l lines) :
      Writes ((name, value) :: l) (statementLine mark keyword name value ending :: lines)

section Lines

variable {mark keyword name value ending : String}

theorem assignment?_statementLine (hmark : mark = "" ∨ mark = "@")
    (hkeyword : sameIgnoringCase keyword "set" = true) (hending : ending = "" ∨ ending = "\r")
    (h : Writable name value) :
    assignment? (statementLine mark keyword name value ending) = some (name, value) := by
  have hat : mark.toList = [] ∨ mark.toList = ['@'] := by
    rcases hmark with rfl | rfl
    · exact .inl rfl
    · exact .inr rfl
  have hend : dropEndWhile isBlank ending.toList = [] := by
    rcases hending with rfl | rfl <;> decide +kernel
  have hbody : statementBody? (statementLine mark keyword name value ending) =
      some (' ' :: '"' :: (name.toList ++ '=' :: value.toList ++ ['"'])) := by
    have hline : statementLine mark keyword name value ending =
        String.ofList ([] ++ mark.toList ++ keyword.toList ++ [' '] ++
          '"' :: (name.toList ++ '=' :: value.toList ++ '"' :: ending.toList)) := by
      simp [statementLine, ← String.toList_inj]
    rw [hline, statementBody?_eq (by simp) hat (by rwa [String.ofList_toList]) (by simp)
      (List.forall_mem_singleton.2 (by decide)) (by decide) (by decide),
      dropEndWhile_append_cons (by decide), hend]
    rfl
  have htrim : (trim (String.ofList
      (' ' :: '"' :: (name.toList ++ '=' :: value.toList ++ ['"'])))).toList =
      '"' :: (name.toList ++ '=' :: value.toList ++ ['"']) := by
    rw [trim_cons (by decide), toList_trim, String.toList_ofList,
      List.dropWhile_cons_of_neg (by decide), ← List.cons_append, dropEndWhile_concat]
    rfl
  have hunquote : unquote ('"' :: (name.toList ++ '=' :: value.toList ++ ['"'])) =
      name.toList ++ '=' :: value.toList := by
    rw [unquote, List.getLast?_concat, if_pos rfl, List.dropLast_concat]
  rw [assignment?, hbody]
  simp only [Option.bind_eq_bind, Option.bind_some, htrim, hunquote, splitOnce?,
    String.toList_ofList, cut?_append h.no_equals, Option.map_some, String.ofList_toList,
    h.trim_name, h.name_ne_empty, if_false]
  rfl

theorem newline_notMem_statementLine (hmark : mark = "" ∨ mark = "@")
    (hkeyword : sameIgnoringCase keyword "set" = true) (hending : ending = "" ∨ ending = "\r")
    (h : Writable name value) :
    '\n' ∉ (statementLine mark keyword name value ending).toList := by
  have hm : '\n' ∉ mark.toList := by
    rcases hmark with rfl | rfl <;> decide
  have hk : '\n' ∉ keyword.toList := by
    rw [(sameIgnoringCase_iff_alike.1 hkeyword).mem_iff (by decide)]
    decide
  have he : '\n' ∉ ending.toList := by
    rcases hending with rfl | rfl <;> decide
  simp [statementLine, hm, hk, he, h.no_newline]

variable {l : List (String × String)} {lines : List String}

theorem filterMap_of_writes (hw : Writes l lines) (h : ∀ a ∈ l, Writable a.1 a.2) :
    (∀ line ∈ lines, '\n' ∉ line.toList) ∧ lines.filterMap assignment? = l := by
  induction hw with
  | nil => exact ⟨by simp, rfl⟩
  | other line hline hn _ ih =>
    obtain ⟨hnone, hmap⟩ := ih h
    refine ⟨List.forall_mem_cons.2 ⟨hn, hnone⟩, ?_⟩
    rw [List.filterMap_cons, assignment?_of_not hline, hmap]
  | statement mark keyword name value ending hmark hkeyword hending _ ih =>
    obtain ⟨ha, hl⟩ := List.forall_mem_cons.1 h
    obtain ⟨hnone, hmap⟩ := ih hl
    refine ⟨List.forall_mem_cons.2
      ⟨newline_notMem_statementLine hmark hkeyword hending ha, hnone⟩, ?_⟩
    rw [List.filterMap_cons, assignment?_statementLine hmark hkeyword hending ha, hmap]

theorem assignments_intercalate (h : ∀ line ∈ lines, '\n' ∉ line.toList) :
    assignments ("\n".intercalate lines) = lines.filterMap assignment? := by
  by_cases hl : lines = []
  · rw [hl]
    exact assignments_empty
  · have hsep : "\n".toList = ['\n'] := rfl
    rw [assignments, splitAll_intercalate hsep h hl]

end Lines

section Reading

variable {environment v : Variables} {l : List (String × String)}

theorem toList_foldl_assign (hl : Literal l)
    (h : ((v.keys ++ l.map Prod.fst).map lower).Nodup) :
    (l.foldl (fun v a => assign environment v a.1 a.2) v).toList = v.toList ++ l := by
  induction l generalizing v with
  | nil => exact (List.append_nil v.toList).symm
  | cons a l ih =>
    obtain ⟨ha, hl⟩ := List.forall_mem_cons.1 hl
    have hfresh : lower a.1 ∉ v.keys.map lower := by
      rw [List.map_append, List.nodup_append] at h
      exact fun hm => h.2.2 _ hm _ List.mem_cons_self rfl
    have hkey : a.1 ∉ v.keys := fun hm => hfresh (List.mem_map_of_mem hm)
    have hnew : v.findIgnoringCase? a.1 = none := by
      rw [OrderedMap.findIgnoringCase?, List.find?_eq_none]
      intro entry he hs
      rw [sameIgnoringCase_iff] at hs
      exact hfresh (hs ▸ List.mem_map_of_mem (List.mem_map_of_mem he))
    have hassign : assign environment v a.1 a.2 = v.insert a.1 a.2 := by
      rw [assign_eq, spellingOf, hnew, expandPercent_of_no_percent ha]
      rfl
    have hkeys : (v.insert a.1 a.2).keys = v.keys ++ [a.1] := by
      rw [OrderedMap.keys_insert, if_neg hkey]
    have hlist : (v.insert a.1 a.2).toList = v.toList ++ [a] :=
      OrderedMap.upsertEntry_of_notMem hkey
    rw [List.foldl_cons, hassign, ih hl (by simpa [hkeys] using h), hlist, List.append_assoc]
    rfl

/-- A script that writes variables is read as these variables in their order, if their names can be
told apart up to letter case, whether or not its last line is ended. -/
theorem read_written (environment v : Variables) (lines : List String) (last : String)
    (hvariables : ∀ a ∈ v.toList, Writable a.1 a.2) (hdistinct : Distinct v)
    (hlines : Writes v.toList lines) (hlast : last = "" ∨ last = "\n") :
    read environment ("\n".intercalate lines ++ last) = v := by
  obtain ⟨hnone, hmap⟩ := filterMap_of_writes hlines hvariables
  have hassignments : assignments ("\n".intercalate lines ++ last) = v.toList := by
    rcases hlast with rfl | rfl
    · rw [String.append_empty, assignments_intercalate hnone, hmap]
    · rw [← String.append_empty (s := "\n".intercalate lines ++ "\n"), assignments_newline,
        assignments_intercalate hnone, hmap, assignments_empty, List.append_nil]
  rw [read_eq_foldl, hassignments]
  refine OrderedMap.ext ?_
  have hliteral : Literal v.toList := fun a ha => (hvariables a ha).no_percent
  exact toList_foldl_assign hliteral hdistinct

def quotedVariables : Variables := .ofList [("Sdk Dir", " \"C:\\SDK;x=1\" "), ("Empty", "")]

theorem read_written_quoted :
    (∀ a ∈ quotedVariables.toList, Writable a.1 a.2) ∧ Distinct quotedVariables ∧
    read ∅ ("@echo off\r\n@sEt \"Sdk Dir= \"C:\\SDK;x=1\" \"\r\nset /a COUNT=1\n" ++
      "SET \"Empty=\"\n") = quotedVariables := by
  have hvariables : ∀ a ∈ quotedVariables.toList, Writable a.1 a.2 := by decide +kernel
  have hdistinct : Distinct quotedVariables := by
    unfold Distinct
    decide +kernel
  have hlines : Writes quotedVariables.toList ["@echo off\r",
      statementLine "@" "sEt" "Sdk Dir" " \"C:\\SDK;x=1\" " "\r", "set /a COUNT=1",
      statementLine "" "SET" "Empty" "" ""] := by
    refine .other _ (by decide +kernel) (by decide +kernel) (.statement _ _ _ _ _ (.inr rfl)
      (by decide +kernel) (.inr rfl) (.other _ (by decide +kernel) (by decide +kernel)
        (.statement _ _ _ _ _ (.inl rfl) (by decide +kernel) (.inl rfl) .nil)))
  have htext : "@echo off\r\n@sEt \"Sdk Dir= \"C:\\SDK;x=1\" \"\r\nset /a COUNT=1\n" ++
      "SET \"Empty=\"\n" = "\n".intercalate ["@echo off\r",
      statementLine "@" "sEt" "Sdk Dir" " \"C:\\SDK;x=1\" " "\r", "set /a COUNT=1",
      statementLine "" "SET" "Empty" "" ""] ++ "\n" := by decide +kernel
  rw [htext]
  exact ⟨hvariables, hdistinct, read_written ∅ quotedVariables _ "\n" hvariables hdistinct hlines
    (.inr rfl)⟩

end Reading

end StudioMake.EnvironmentScript
