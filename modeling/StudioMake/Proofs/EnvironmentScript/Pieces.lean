import StudioMake.Proofs.EnvironmentScript.Assignments
import StudioMake.Proofs.EnvironmentScript.References

/-!
# Lines put together from pieces

A line is written as texts, references to variables and parameters of the script in any order, and
perhaps one more percent sign before its last text. Expanding it replaces each reference by its
value, whatever pieces stand around it: the percent sign that ends one piece is never taken for
the start of another, and a value is not looked at again.
-/

set_option autoImplicit false

namespace StudioMake.EnvironmentScript

/-- What stands behind the percent sign of a parameter, up to the next piece. -/
structure IsParameter (text : List Char) : Prop where
  no_percent : '%' ∉ text
  starts : startsParameter text = true

abbrev PlainText := { s : String // '%' ∉ s.toList }

inductive Piece
  | text (s : PlainText)
  | reference (name : { s : String // IsReference s.toList })
  | parameter (s : { s : String // IsParameter s.toList })

namespace Piece

def written : Piece → String
  | text s => s.val
  | reference name => "%" ++ name.val ++ "%"
  | parameter s => "%" ++ s.val

/-- A piece with the value of its name in place of a reference. -/
def expanded (value : String → String) : Piece → String
  | text s => s.val
  | reference name => value name.val
  | parameter s => "%" ++ s.val

end Piece

structure Line where
  pieces : List Piece
  last? : Option PlainText

namespace Line

def ending (line : Line) : String :=
  match line.last? with
  | some s => "%" ++ s.val
  | none => ""

def written (line : Line) : String := String.join (line.pieces.map Piece.written) ++ line.ending

def expanded (value : String → String) (line : Line) : String :=
  String.join (line.pieces.map (Piece.expanded value)) ++ line.ending

end Line

section Values

variable {environment v : Variables} {name value : String}

/-- The value of a name: that of the variable of this name up to letter case, else that in the
environment of the process. A name without either is empty. -/
inductive HasValue (environment v : Variables) (name : String) : String → Prop
  | assigned {key value : String} (h : (key, value) ∈ v.toList)
      (hs : Text.sameIgnoringCase key name = true) : HasValue environment v name value
  | inherited {value : String} (hv : ∀ key ∈ v.keys, Text.sameIgnoringCase key name = false)
      (h : environmentValue? environment name = some value) : HasValue environment v name value
  | unset (hv : ∀ key ∈ v.keys, Text.sameIgnoringCase key name = false)
      (h : environmentValue? environment name = none) : HasValue environment v name ""

theorem find_eq_none_of_keys (hv : ∀ key ∈ v.keys, Text.sameIgnoringCase key name = false) :
    v.findIgnoringCase? name = none := by
  rw [OrderedMap.findIgnoringCase?, List.find?_eq_none]
  intro entry he
  rw [hv entry.1 (List.mem_map_of_mem he)]
  exact Bool.false_ne_true

theorem hasValue_lookup (environment v : Variables) (name : String) :
    HasValue environment v name (lookup environment v name) := by
  unfold lookup
  cases hfind : v.findIgnoringCase? name with
  | some entry => exact .assigned (List.mem_of_find?_eq_some hfind) (sameIgnoringCase_of_find hfind)
  | none =>
    have hv : ∀ key ∈ v.keys, Text.sameIgnoringCase key name = false := by
      intro key hkey
      obtain ⟨entry, he, rfl⟩ := List.mem_map.1 hkey
      rw [OrderedMap.findIgnoringCase?, List.find?_eq_none] at hfind
      exact Bool.eq_false_iff.2 (hfind entry he)
    cases hinherited : environmentValue? environment name with
    | some value => exact .inherited hv hinherited
    | none => exact .unset hv hinherited

theorem hasValue_iff (h : Distinct v) :
    HasValue environment v name value ↔ value = lookup environment v name := by
  constructor
  · intro hvalue
    unfold lookup
    cases hvalue with
    | @assigned key value hm hs =>
      have hfind : (key, value) ∈ (v.findIgnoringCase? name).toList := by
        rw [← filter_sameIgnoringCase h]
        exact List.mem_filter.2 ⟨hm, hs⟩
      rw [Option.mem_toList.1 hfind]
    | inherited hv hinherited =>
      rw [find_eq_none_of_keys hv, hinherited]
      rfl
    | unset hv hnone =>
      rw [find_eq_none_of_keys hv, hnone]
      rfl
  · rintro rfl
    exact hasValue_lookup environment v name

end Values

section Expanding

variable {value : String → String} {rest out : List Char}

theorem Piece.expands (piece : Piece) (h : Expands value rest out) :
    Expands value (piece.written.toList ++ rest) ((piece.expanded value).toList ++ out) := by
  cases piece with
  | text s => exact .plain_append s.2 h
  | reference name =>
    have hl : (Piece.reference name).written.toList ++ rest =
        '%' :: (name.val.toList ++ '%' :: rest) := by simp [written]
    have hreference : Expands value _ ((value (String.ofList name.val.toList)).toList ++ out) :=
      .reference name.2 h
    rw [String.ofList_toList] at hreference
    rw [hl]
    exact hreference
  | parameter s =>
    have hl (l : List Char) : ("%" ++ s.val).toList ++ l = '%' :: (s.val.toList ++ l) := by simp
    rw [written, expanded, hl, hl]
    have hne : s.val.toList ≠ [] := by
      intro hnil
      have hstarts := s.2.starts
      rw [hnil] at hstarts
      cases hstarts
    refine .percent (not_opens_of_startsParameter ?_) (.plain_append s.2.no_percent h)
    rw [startsParameter_append hne, s.2.starts]

theorem expands_join (pieces : List Piece) (h : Expands value rest out) :
    Expands value ((String.join (pieces.map Piece.written)).toList ++ rest)
      ((String.join (pieces.map (Piece.expanded value))).toList ++ out) := by
  induction pieces with
  | nil => exact h
  | cons piece pieces ih =>
    rw [List.map_cons, List.map_cons, String.join_cons, String.join_cons, String.toList_append,
      String.toList_append, List.append_assoc, List.append_assoc]
    exact piece.expands ih

theorem Line.expands_ending (line : Line) :
    Expands value line.ending.toList line.ending.toList := by
  unfold ending
  cases line.last? with
  | none => exact .nil
  | some s =>
    have hl : ("%" ++ s.val).toList = '%' :: s.val.toList := by simp
    rw [hl]
    exact .percent (not_opens_of_cut?_eq_none (Text.cut?_eq_none_iff.2 s.2)) (.of_no_percent s.2)

theorem Line.expands (value : String → String) (line : Line) :
    Expands value line.written.toList (line.expanded value).toList := by
  rw [written, expanded, String.toList_append, String.toList_append]
  exact expands_join line.pieces line.expands_ending

end Expanding

/-- Expanding a line replaces its references by the values of their names and keeps its other pieces
as they are written. -/
theorem expandPercent_written (environment : Variables) {v : Variables} (h : Distinct v)
    (line : Line) :
    expandPercent environment v line.written = line.expanded (lookup environment v) ∧
    ∀ name value, HasValue environment v name value ↔ value = lookup environment v name := by
  refine ⟨?_, fun name value => hasValue_iff h⟩
  rw [expandPercent, ← expands_iff.1 (line.expands (lookup environment v)), String.ofList_toList]

def touchingPieces : Line where
  pieces :=
    [.text ⟨"a", by decide⟩,
      .reference ⟨"foo", by decide, by decide, by decide⟩,
      .parameter ⟨"~dp0", by decide, by decide⟩,
      .reference ⟨"BAR", by decide, by decide, by decide⟩,
      .parameter ⟨"1", by decide, by decide⟩,
      .reference ⟨"none", by decide, by decide, by decide⟩]
  last? := some ⟨"z", by decide⟩

theorem expandPercent_written_touching :
    Distinct (.ofList [("Foo", "%BAR%")]) ∧
    expandPercent (.ofList [("BAR", "x")]) (.ofList [("Foo", "%BAR%")]) touchingPieces.written =
      "a%BAR%%~dp0x%1%z" := by
  have hdistinct : Distinct (.ofList [("Foo", "%BAR%")]) := by
    unfold Distinct
    decide +kernel
  refine ⟨hdistinct, ?_⟩
  rw [(expandPercent_written (.ofList [("BAR", "x")]) hdistinct touchingPieces).1]
  decide +kernel

end StudioMake.EnvironmentScript
