import StudioMake.Proofs.EnvironmentScript.References
import StudioMake.Proofs.EnvironmentScript.RoundTrip

/-!
# The variables of a script

Names agree up to letter case, so the variables stand in the order in which their names are first
assigned, under any spelling, and are spelled as they are there. The value of a variable comes from
the last line that assigns it, read with the variables that the lines before it leave.
-/

set_option autoImplicit false

namespace StudioMake.EnvironmentScript

open Text OrderedMap

variable {environment v : Variables} {name : String} {l : List (String × String)}
  {lines : List String}

structure IsVariableName (name : String) : Prop where
  ne_empty : name ≠ ""
  trim_eq : trim name = name
  no_equals : '=' ∉ name.toList

theorem notMem_trim {c : Char} {s : String} (h : c ∉ s.toList) : c ∉ (trim s).toList := by
  obtain ⟨lead, trail, hs, -⟩ := exists_toList_eq_trim s
  intro hm
  rw [hs] at h
  exact h (List.mem_append_left _ (List.mem_append_right _ hm))

theorem isVariableName_of_assignment? {line raw : String}
    (h : assignment? line = some (name, raw)) : IsVariableName name := by
  unfold assignment? at h
  obtain ⟨body, -, h⟩ := Option.bind_eq_some_iff.1 h
  obtain ⟨⟨written, value⟩, hsplit, h⟩ := Option.bind_eq_some_iff.1 h
  dsimp only at h
  split at h
  · cases h
  · next hne =>
    cases h
    refine ⟨hne, trim_trim written, notMem_trim ?_⟩
    obtain ⟨⟨a, b⟩, hcut, hab⟩ := Option.map_eq_some_iff.1 hsplit
    cases hab
    rw [String.toList_ofList]
    exact (eq_of_cut? hcut).2

def assignAll (environment v : Variables) (l : List (String × String)) : Variables :=
  l.foldl (fun v a => assign environment v a.1 a.2) v

theorem mem_map_lower_keys_iff :
    lower name ∈ v.keys.map lower ↔ spellingOf v name ∈ v.keys := by
  have hs := sameIgnoringCase_iff.1 (sameIgnoringCase_spellingOf v name)
  constructor
  · intro h
    obtain ⟨key, hk, hlower⟩ := List.mem_map.1 h
    exact spellingOf_mem_keys hk (sameIgnoringCase_iff.2 hlower)
  · intro h
    rw [← hs]
    exact List.mem_map_of_mem h

theorem map_lower_keys_assign (environment v : Variables) (name value : String) :
    (assign environment v name value).keys.map lower = addNew (v.keys.map lower) [lower name] := by
  rw [assign_eq, keys_insert, addNew_singleton]
  by_cases h : spellingOf v name ∈ v.keys
  · rw [if_pos h, if_pos (mem_map_lower_keys_iff.2 h)]
  · rw [if_neg h, if_neg (mt mem_map_lower_keys_iff.1 h), List.map_append, List.map_singleton,
      sameIgnoringCase_iff.1 (sameIgnoringCase_spellingOf v name)]

theorem map_lower_keys_assignAll (environment v : Variables) (l : List (String × String)) :
    (assignAll environment v l).keys.map lower =
      addNew (v.keys.map lower) (l.map fun a => lower a.1) := by
  have h := get_foldl_eq_addNew (fun v : Variables => v.keys.map lower)
    (fun v a => map_lower_keys_assign environment v a.1 a.2) l v
  rwa [← List.map_eq_flatMap] at h

theorem map_fst_find_assignAll (environment v : Variables) (l : List (String × String))
    (name : String) : ((assignAll environment v l).findIgnoringCase? name).map Prod.fst =
      ((v.findIgnoringCase? name).map Prod.fst).or
        ((l.find? fun a => sameIgnoringCase a.1 name).map Prod.fst) := by
  induction l generalizing v with
  | nil => exact Option.or_none.symm
  | cons a l ih =>
    have hstep : assignAll environment v (a :: l) =
        assignAll environment (assign environment v a.1 a.2) l := rfl
    rw [hstep, ih, findIgnoringCase?_assign]
    cases hs : sameIgnoringCase a.1 name with
    | false => rw [if_neg Bool.false_ne_true, List.find?_cons_of_neg (by simp [hs])]
    | true =>
      rw [if_pos rfl, List.find?_cons_of_pos (by simp [hs]), spellingOf, findIgnoringCase?_congr hs]
      cases v.findIgnoringCase? name <;> rfl

theorem read_eq_assignAll (environment : Variables) (script : String) :
    read environment script = assignAll environment ∅ (assignments script) :=
  read_eq_foldl environment script

theorem read_intercalate (h : ∀ line ∈ lines, '\n' ∉ line.toList) :
    read environment ("\n".intercalate lines) =
      assignAll environment ∅ (lines.filterMap assignment?) := by
  rw [read_eq_assignAll, assignments_intercalate h]

/-- What the last line that assigns a variable writes, and the lines before it. -/
def LastAssignment (lines : List String) (name : String) (before : List String) (raw : String) :
    Prop :=
  ∃ line written after, lines = before ++ line :: after ∧
    assignment? line = some (written, raw) ∧ sameIgnoringCase written name = true ∧
    ∀ other ∈ after, ∀ a, assignment? other = some a → sameIgnoringCase a.1 name = false

theorem LastAssignment.concat {before : List String} {raw last : String}
    (h : LastAssignment lines name before raw)
    (hlast : ∀ a, assignment? last = some a → sameIgnoringCase a.1 name = false) :
    LastAssignment (lines ++ [last]) name before raw := by
  obtain ⟨line, written, after, rfl, hline, hsame, hafter⟩ := h
  refine ⟨line, written, after ++ [last], by simp, hline, hsame, ?_⟩
  intro other ho
  rcases List.mem_append.1 ho with ho | ho
  · exact hafter other ho
  · rw [List.mem_singleton.1 ho]
    exact hlast

theorem exists_lastAssignment {entry : String × String}
    (h : (assignAll environment ∅ (lines.filterMap assignment?)).findIgnoringCase? name =
      some entry) :
    ∃ before raw, LastAssignment lines name before raw ∧ entry.2 = expandPercent environment
      (assignAll environment ∅ (before.filterMap assignment?)) raw := by
  induction lines using List.reverseRecOn with
  | nil => cases h
  | append_singleton lines last ih =>
    rw [List.filterMap_append, filterMap_cons_eq, List.filterMap_nil, List.append_nil] at h
    cases ha : assignment? last with
    | none =>
      rw [ha, Option.toList_none, List.append_nil] at h
      obtain ⟨before, raw, hraw, hvalue⟩ := ih h
      refine ⟨before, raw, hraw.concat fun a he => ?_, hvalue⟩
      rw [ha] at he
      cases he
    | some a =>
      rw [ha, Option.toList_some, assignAll, List.foldl_concat, ← assignAll,
        findIgnoringCase?_assign] at h
      cases hs : sameIgnoringCase a.1 name with
      | false =>
        rw [hs, if_neg Bool.false_ne_true] at h
        obtain ⟨before, raw, hraw, hvalue⟩ := ih h
        refine ⟨before, raw, hraw.concat fun a' he => ?_, hvalue⟩
        rw [ha] at he
        cases he
        exact hs
      | true =>
        rw [hs, if_pos rfl] at h
        cases h
        exact ⟨lines, a.2, ⟨last, a.1, [], rfl, ha, hs, fun other ho => nomatch ho⟩, rfl⟩

theorem find_of_mem (h : Distinct v) {entry : String × String} (he : entry ∈ v.toList) :
    v.findIgnoringCase? entry.1 = some entry := by
  have hm : entry ∈ v.toList.filter fun e => sameIgnoringCase e.1 entry.1 :=
    List.mem_filter.2 ⟨he, sameIgnoringCase_self entry.1⟩
  rw [filter_sameIgnoringCase h, Option.mem_toList] at hm
  exact hm

/-- The variables of a script can be told apart up to letter case and stand in the order in which
their names are first assigned. Each has a name that can be assigned, spelled as in its first
assignment, and its value is what the last line that assigns it writes, where every reference is
replaced by the value that the lines before this one leave, or else by that of the process. -/
theorem variables_of_script (environment : Variables) (script : String) :
    (read environment script).keys.map lower =
      ((assignments script).map fun a => lower a.1).eraseDups ∧
    ((read environment script).keys.map lower).Nodup ∧
    ∀ name value, (name, value) ∈ (read environment script).toList →
      IsVariableName name ∧
      ((assignments script).find? fun a => sameIgnoringCase a.1 name).map Prod.fst = some name ∧
      ∃ before raw, LastAssignment (splitAll (· == '\n') script) name before raw ∧
        ∀ out, Expands (lookup environment (read environment ("\n".intercalate before)))
          raw.toList out ↔ out = value.toList := by
  have hread := read_eq_assignAll environment script
  refine ⟨?_, distinct_read environment script, fun name value hm => ?_⟩
  · rw [hread, map_lower_keys_assignAll]
    exact nil_addNew _
  have hfind := find_of_mem (distinct_read environment script) hm
  rw [hread] at hfind
  have hfirst := map_fst_find_assignAll environment ∅ (assignments script) name
  rw [hfind] at hfirst
  obtain ⟨before, raw, hlast, hvalue⟩ := exists_lastAssignment hfind
  refine ⟨?_, hfirst.symm, before, raw, hlast, fun out => ?_⟩
  · obtain ⟨a, ha, hname⟩ := Option.map_eq_some_iff.1 hfirst.symm
    obtain ⟨line, -, hline⟩ := List.mem_filterMap.1 (List.mem_of_find?_eq_some ha)
    obtain rfl : a.1 = name := hname
    exact isVariableName_of_assignment? hline
  · have hbefore : ∀ line ∈ before, '\n' ∉ line.toList := by
      obtain ⟨line, written, after, hlines, -⟩ := hlast
      exact fun other ho => notMem_of_mem_splitAll (hlines ▸ List.mem_append_left _ ho)
    have hout : value.toList = expandFrom environment
        (assignAll environment ∅ (before.filterMap assignment?)) raw.toList := by
      rw [show value = _ from hvalue, expandPercent, String.toList_ofList]
    rw [read_intercalate hbefore, expands_iff, hout]

def respelledScript : String := "set Foo=1\nSET FOO=%foo%%BAR%%1\nrem done"

theorem variables_of_script_respelled :
    ("Foo", "1x%1") ∈ (read (.ofList [("BAR", "x")]) respelledScript).toList ∧
    ∃ before raw, LastAssignment (splitAll (· == '\n') respelledScript) "Foo" before raw ∧
      Expands (lookup (.ofList [("BAR", "x")])
        (read (.ofList [("BAR", "x")]) ("\n".intercalate before))) raw.toList "1x%1".toList := by
  have hm : ("Foo", "1x%1") ∈ (read (.ofList [("BAR", "x")]) respelledScript).toList := by
    decide +kernel
  obtain ⟨-, -, before, raw, hlast, hvalue⟩ :=
    (variables_of_script (.ofList [("BAR", "x")]) respelledScript).2.2 "Foo" "1x%1" hm
  exact ⟨hm, before, raw, hlast, (hvalue _).2 rfl⟩

end StudioMake.EnvironmentScript
