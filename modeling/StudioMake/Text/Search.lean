/-!
# Searching and replacing

A pattern is looked for from the left; replacements do not overlap and are not searched again.
-/

set_option autoImplicit false

namespace StudioMake.Text

def around? (pattern : List Char) : List Char → Option (List Char × List Char)
  | [] => if pattern.isEmpty then some ([], []) else none
  | c :: rest =>
    if pattern.isPrefixOf (c :: rest) then some ([], (c :: rest).drop pattern.length)
    else (around? pattern rest).map fun (a, b) => (c :: a, b)

theorem length_of_around? {pattern l a b : List Char} (h : around? pattern l = some (a, b)) :
    b.length ≤ l.length := by
  induction l generalizing a with
  | nil =>
    rw [around?] at h
    split at h <;> cases h
    exact Nat.le_refl _
  | cons c rest ih =>
    rw [around?] at h
    split at h
    · cases h
      simp
    · obtain ⟨⟨a', b'⟩, ha, he⟩ := Option.map_eq_some_iff.1 h
      cases he
      exact Nat.le_succ_of_le (ih ha)

theorem isSome_around?_iff {pattern l : List Char} :
    (around? pattern l).isSome = true ↔ pattern <:+: l := by
  induction l with
  | nil => cases pattern <;> simp [around?]
  | cons c rest ih =>
    rw [around?, List.infix_cons_iff, ← ih, ← List.isPrefixOf_iff_prefix]
    split
    · next h => simp [h]
    · next h => simp [h]

def contains (pattern s : String) : Bool :=
  (around? pattern.toList s.toList).isSome

theorem contains_iff {pattern s : String} :
    contains pattern s = true ↔ pattern.toList <:+: s.toList :=
  isSome_around?_iff

/-- Replaces the occurrences of `pattern` met after skipping `n` characters that are already
replaced. -/
def replaceFrom (pattern value : List Char) : Nat → List Char → List Char
  | _, [] => []
  | n + 1, _ :: rest => replaceFrom pattern value n rest
  | 0, c :: rest =>
    if pattern.isPrefixOf (c :: rest) then
      value ++ replaceFrom pattern value (pattern.length - 1) rest
    else c :: replaceFrom pattern value 0 rest

def replaceAll (pattern value s : String) : String :=
  String.ofList (replaceFrom pattern.toList value.toList 0 s.toList)

def dropLead? (lead s : String) : Option String :=
  if lead.toList.isPrefixOf s.toList then some (String.ofList (s.toList.drop lead.toList.length))
  else none

theorem dropLead?_append (lead s : String) : dropLead? lead (lead ++ s) = some s := by
  simp [dropLead?]

end StudioMake.Text
