import StudioMake.Proofs.MacroTable.Seeding
import StudioMake.Proofs.Text.Pieces

/-!
# Assignments of a script

Reading a script carries out its assignments in order. The variables that come of it can be told
apart up to letter case, so a name has at most one spelling in them: that of its first assignment.
Its value is that of the last one.
-/

set_option autoImplicit false

namespace StudioMake.EnvironmentScript

variable {environment v : Variables} {name : String} {l : List (String × String)}

/-- What a script assigns, line by line: the names without the blanks around them, the values as
they are written. -/
def assignments (script : String) : List (String × String) :=
  (Text.splitAll (· == '\n') script).filterMap assignment?

theorem read_eq_foldl (environment : Variables) (script : String) :
    read environment script =
      (assignments script).foldl (fun v a => assign environment v a.1 a.2) ∅ := by
  rw [read, assignments, List.foldl_filterMap]
  congr 1
  funext v line
  cases assignment? line <;> rfl

theorem assignments_empty : assignments "" = [] := by decide

theorem assignments_newline (body rest : String) :
    assignments (body ++ "\n" ++ rest) = assignments body ++ assignments rest := by
  have hsep : "\n".toList = ['\n'] := rfl
  rw [assignments, Text.splitAll_append hsep, List.filterMap_append]
  rfl

theorem assignments_append (body rest : String) :
    assignments (body ++ "\n" ++ rest) = assignments (body ++ "\n") ++ assignments rest := by
  rw [assignments_newline, ← String.append_empty (s := body ++ "\n"), assignments_newline,
    assignments_empty, List.append_nil]

theorem assignments_join {scripts : List String} (h : ∀ s ∈ scripts, ∃ body, s = body ++ "\n") :
    assignments (String.join scripts) = scripts.flatMap assignments := by
  induction scripts with
  | nil => decide
  | cons s scripts ih =>
    obtain ⟨⟨body, rfl⟩, hrest⟩ := List.forall_mem_cons.1 h
    rw [String.join_cons, assignments_append, ih hrest, List.flatMap_cons]

theorem expandFrom_of_no_percent {text : List Char} (h : '%' ∉ text) :
    expandFrom environment v text = text := by
  induction text with
  | nil => rw [expandFrom]
  | cons c rest ih =>
    rw [List.mem_cons, not_or] at h
    rw [expandFrom, ih h.2]
    rintro rfl
    exact h.1 rfl

theorem expandPercent_of_no_percent {text : String} (h : '%' ∉ text.toList) :
    expandPercent environment v text = text := by
  rw [expandPercent, expandFrom_of_no_percent h, String.ofList_toList]

section Spelling

def Distinct (v : Variables) : Prop := (v.keys.map Text.lower).Nodup

/-- A name is assigned under the spelling that it has, if it has one. -/
def spellingOf (v : Variables) (name : String) : String :=
  ((v.findIgnoringCase? name).map Prod.fst).getD name

theorem sameIgnoringCase_of_find {entry : String × String}
    (h : v.findIgnoringCase? name = some entry) : Text.sameIgnoringCase entry.1 name = true := by
  unfold OrderedMap.findIgnoringCase? at h
  have hs := List.find?_some h
  exact hs

theorem findIgnoringCase?_congr {other : String} (h : Text.sameIgnoringCase name other = true) :
    v.findIgnoringCase? name = v.findIgnoringCase? other := by
  rw [Text.sameIgnoringCase_iff] at h
  unfold OrderedMap.findIgnoringCase? Text.sameIgnoringCase
  rw [h]

theorem sameIgnoringCase_spellingOf (v : Variables) (name : String) :
    Text.sameIgnoringCase (spellingOf v name) name = true := by
  unfold spellingOf
  cases h : v.findIgnoringCase? name with
  | none => exact Text.sameIgnoringCase_self name
  | some entry => exact sameIgnoringCase_of_find h

theorem spellingOf_mem_keys {key : String} (hk : key ∈ v.keys)
    (hs : Text.sameIgnoringCase key name = true) : spellingOf v name ∈ v.keys := by
  obtain ⟨entry, he, rfl⟩ := List.mem_map.1 hk
  obtain ⟨found, hf⟩ := Option.isSome_iff_exists.1 (List.find?_isSome
    (p := fun entry : String × String => Text.sameIgnoringCase entry.1 name).2 ⟨entry, he, hs⟩)
  rw [spellingOf, OrderedMap.findIgnoringCase?, hf]
  exact List.mem_map_of_mem (List.mem_of_find?_eq_some hf)

theorem assign_eq (environment v : Variables) (name value : String) :
    assign environment v name value =
      v.insert (spellingOf v name) (expandPercent environment v value) :=
  rfl

theorem findIgnoringCase?_assign (environment v : Variables) (name value other : String) :
    (assign environment v name value).findIgnoringCase? other =
      if Text.sameIgnoringCase name other then
        some (spellingOf v name, expandPercent environment v value)
      else v.findIgnoringCase? other := by
  have hs := Text.sameIgnoringCase_iff.1 (sameIgnoringCase_spellingOf v name)
  let p : String → Bool := fun key => Text.sameIgnoringCase key other
  rw [assign_eq]
  by_cases h : Text.sameIgnoringCase name other = true
  · have hp : p (spellingOf v name) = true :=
      Text.sameIgnoringCase_iff.2 (hs.trans (Text.sameIgnoringCase_iff.1 h))
    have hfirst : ∀ entry, v.toList.find? (fun e => p e.1) = some entry →
        entry.1 = spellingOf v name := by
      intro entry he
      rw [spellingOf, findIgnoringCase?_congr h, OrderedMap.findIgnoringCase?, he]
      rfl
    obtain ⟨-, hf⟩ := OrderedMap.find?_upsertEntry hp
      (fun _ => expandPercent environment v value) hfirst
    rw [if_pos h]
    exact hf
  · have hp : p (spellingOf v name) = false := by
      rw [Bool.eq_false_iff]
      intro ht
      exact h (Text.sameIgnoringCase_iff.2 (hs.symm.trans (Text.sameIgnoringCase_iff.1 ht)))
    rw [if_neg h]
    exact OrderedMap.find?_upsertEntry_of_not hp _ _

theorem distinct_assign (h : Distinct v) (name value : String) :
    Distinct (assign environment v name value) := by
  unfold Distinct
  rw [assign_eq, OrderedMap.keys_insert]
  split
  · exact h
  · next hm =>
    rw [List.map_append, List.map_singleton, ← List.concat_eq_append]
    refine List.Nodup.concat (fun hl => hm ?_) h
    obtain ⟨key, hk, hlower⟩ := List.mem_map.1 hl
    have hs := Text.sameIgnoringCase_iff.1 (sameIgnoringCase_spellingOf v name)
    exact spellingOf_mem_keys hk (Text.sameIgnoringCase_iff.2 (hlower.trans hs))

theorem distinct_foldl (h : Distinct v) (l : List (String × String)) :
    Distinct (l.foldl (fun v a => assign environment v a.1 a.2) v) := by
  induction l generalizing v with
  | nil => exact h
  | cons a l ih => exact ih (distinct_assign h a.1 a.2)

theorem distinct_read (environment : Variables) (script : String) :
    Distinct (read environment script) := by
  have hempty : Distinct ∅ := List.nodup_nil
  rw [read_eq_foldl]
  exact distinct_foldl hempty _

theorem filter_sameIgnoringCase (h : Distinct v) (name : String) :
    v.toList.filter (fun entry => Text.sameIgnoringCase entry.1 name) =
      (v.findIgnoringCase? name).toList := by
  unfold Distinct OrderedMap.keys at h
  unfold OrderedMap.findIgnoringCase?
  generalize v.toList = l at h ⊢
  induction l with
  | nil => rfl
  | cons entry l ih =>
    rw [List.map_cons, List.map_cons, List.nodup_cons] at h
    cases hs : Text.sameIgnoringCase entry.1 name with
    | false => simp [hs, ih h.2]
    | true =>
      have hrest : l.filter (fun e => Text.sameIgnoringCase e.1 name) = [] := by
        refine List.filter_eq_nil_iff.2 fun e he ht => h.1 ?_
        rw [Text.sameIgnoringCase_iff] at hs ht
        rw [hs, ← ht]
        exact List.mem_map_of_mem (List.mem_map_of_mem he)
      simp [hs, hrest]

end Spelling

section Values

/-- What becomes of a name among assignments: the spelling of the first one, the value of the last
one. -/
def use? (name : String) (l : List (String × String)) : Option (String × String) :=
  (l.find? fun a => Text.sameIgnoringCase a.1 name).bind fun first =>
    (lastFor? name l).map fun value => (first.1, value)

section Cons

variable {a : String × String}

theorem lastFor?_cons_of_same (h : Text.sameIgnoringCase a.1 name = true) :
    lastFor? name (a :: l) = some ((lastFor? name l).getD a.2) := by
  rw [lastFor?, lastSome?_cons, valueFor?, if_pos h, ← lastFor?]
  cases lastFor? name l <;> rfl

theorem lastFor?_cons_of_not_same (h : Text.sameIgnoringCase a.1 name = false) :
    lastFor? name (a :: l) = lastFor? name l := by
  rw [lastFor?, lastSome?_cons, valueFor?, if_neg (by simp [h]), Option.or_none, ← lastFor?]

theorem use?_cons_of_same (h : Text.sameIgnoringCase a.1 name = true) :
    use? name (a :: l) = some (a.1, (lastFor? name l).getD a.2) := by
  rw [use?, List.find?_cons_of_pos (by simp [h]), lastFor?_cons_of_same h]
  rfl

theorem use?_cons_of_not_same (h : Text.sameIgnoringCase a.1 name = false) :
    use? name (a :: l) = use? name l := by
  rw [use?, List.find?_cons_of_neg (by simp [h]), lastFor?_cons_of_not_same h, use?]

end Cons

def Literal (l : List (String × String)) : Prop := ∀ a ∈ l, '%' ∉ a.2.toList

instance : DecidablePred Literal := fun l =>
  inferInstanceAs (Decidable (∀ a ∈ l, '%' ∉ a.2.toList))

theorem findIgnoringCase?_foldl (hl : Literal l) (v : Variables) (name : String) :
    (l.foldl (fun v a => assign environment v a.1 a.2) v).findIgnoringCase? name =
      match v.findIgnoringCase? name with
      | some entry => some (entry.1, (lastFor? name l).getD entry.2)
      | none => use? name l := by
  induction l generalizing v with
  | nil => cases h : v.findIgnoringCase? name <;> simp [h, lastFor?, lastSome?, use?]
  | cons a l ih =>
    obtain ⟨ha, hl⟩ := List.forall_mem_cons.1 hl
    rw [List.foldl_cons, ih hl, findIgnoringCase?_assign, expandPercent_of_no_percent ha]
    cases hs : Text.sameIgnoringCase a.1 name with
    | false =>
      rw [if_neg Bool.false_ne_true, lastFor?_cons_of_not_same hs, use?_cons_of_not_same hs]
    | true =>
      rw [if_pos rfl, spellingOf, findIgnoringCase?_congr hs, lastFor?_cons_of_same hs,
        use?_cons_of_same hs]
      cases v.findIgnoringCase? name <;> rfl

theorem findIgnoringCase?_read {script : String} (h : Literal (assignments script)) :
    (read environment script).findIgnoringCase? name = use? name (assignments script) := by
  rw [read_eq_foldl, findIgnoringCase?_foldl h]
  rfl

end Values

end StudioMake.EnvironmentScript
