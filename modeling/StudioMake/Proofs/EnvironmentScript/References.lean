import StudioMake.EnvironmentScript

/-!
# References to variables

What the percent signs of a text mean is seen from the text alone. One with another behind it opens
a reference to the name between the two, unless this is empty or a parameter of the script starts
there; every other percent sign stays. So a text says which variables it asks for, and what it
becomes depends on nothing but their values.
-/

set_option autoImplicit false

namespace StudioMake.EnvironmentScript

/-- A name that stands between the percent signs of a reference. -/
structure IsReference (name : List Char) : Prop where
  ne_nil : name ≠ []
  no_percent : '%' ∉ name
  no_parameter : startsParameter name = false

def Opens (rest : List Char) : Prop :=
  ∃ name after, rest = name ++ '%' :: after ∧ IsReference name

/-- A text and what becomes of it when every reference is replaced by the value of its name. -/
inductive Expands (value : String → String) : List Char → List Char → Prop
  | nil : Expands value [] []
  | plain {c : Char} {rest out : List Char} (hc : c ≠ '%') (h : Expands value rest out) :
      Expands value (c :: rest) (c :: out)
  | reference {name after out : List Char} (hname : IsReference name)
      (h : Expands value after out) :
      Expands value ('%' :: (name ++ '%' :: after)) ((value (String.ofList name)).toList ++ out)
  | percent {rest out : List Char} (hrest : ¬ Opens rest) (h : Expands value rest out) :
      Expands value ('%' :: rest) ('%' :: out)

variable {value : String → String} {rest name after : List Char}

theorem startsParameter_append (h : name ≠ []) (l : List Char) :
    startsParameter (name ++ l) = startsParameter name := by
  cases name with
  | nil => exact absurd rfl h
  | cons c name => rfl

theorem opens_iff_of_cut? (h : Text.cut? '%' rest = some (name, after)) :
    Opens rest ↔ IsReference name := by
  constructor
  · rintro ⟨other, more, rfl, hother⟩
    rw [Text.cut?_append hother.no_percent] at h
    cases h
    exact hother
  · exact fun hname => ⟨name, after, (Text.eq_of_cut? h).1, hname⟩

theorem not_opens_of_cut?_eq_none (h : Text.cut? '%' rest = none) : ¬ Opens rest := by
  rintro ⟨name, after, rfl, -⟩
  rw [Text.cut?_eq_none_iff] at h
  exact h (by simp)

theorem not_opens_of_startsParameter (h : startsParameter rest = true) : ¬ Opens rest := by
  rintro ⟨name, after, rfl, hname⟩
  rw [startsParameter_append hname.ne_nil, hname.no_parameter] at h
  cases h

theorem isReference_iff_of_cut? (h : Text.cut? '%' rest = some (name, after)) :
    IsReference name ↔ (startsParameter rest || name.isEmpty) = false := by
  obtain ⟨rfl, hpercent⟩ := Text.eq_of_cut? h
  constructor
  · intro hname
    rw [startsParameter_append hname.ne_nil, hname.no_parameter, Bool.false_or,
      List.isEmpty_eq_false_iff]
    exact hname.ne_nil
  · intro hname
    rw [Bool.or_eq_false_iff, List.isEmpty_eq_false_iff] at hname
    exact ⟨hname.2, hpercent, startsParameter_append hname.2 _ ▸ hname.1⟩

theorem Expands.plain_append {text out : List Char} (h : '%' ∉ text)
    (hrest : Expands value rest out) :
    Expands value (text ++ rest) (text ++ out) := by
  induction text with
  | nil => exact hrest
  | cons c text ih =>
    rw [List.mem_cons, not_or] at h
    exact .plain (Ne.symm h.1) (ih h.2)

theorem Expands.of_no_percent {text : List Char} (h : '%' ∉ text) : Expands value text text := by
  have hend : Expands value (text ++ []) (text ++ []) := .plain_append h .nil
  rwa [List.append_nil] at hend

variable {environment v : Variables}

theorem expands_expandFrom (text : List Char) :
    Expands (lookup environment v) text (expandFrom environment v text) := by
  fun_induction expandFrom environment v text with
  | case1 => exact .nil
  | case2 rest name after hcut _ hstay ih =>
    refine .percent ?_ ih
    rw [opens_iff_of_cut? hcut, isReference_iff_of_cut? hcut, hstay]
    exact Bool.noConfusion
  | case3 rest name after hcut _ hname ih =>
    obtain ⟨rfl, -⟩ := Text.eq_of_cut? hcut
    exact .reference ((isReference_iff_of_cut? hcut).2 (Bool.eq_false_iff.2 hname)) ih
  | case4 rest hcut =>
    exact .percent (not_opens_of_cut?_eq_none hcut) (.of_no_percent (Text.cut?_eq_none_iff.1 hcut))
  | case5 c rest hc ih => exact .plain hc ih

theorem Expands.unique {text out out' : List Char} (h : Expands value text out)
    (h' : Expands value text out') : out = out' := by
  induction h generalizing out' with
  | nil =>
    cases h'
    rfl
  | plain hc _ ih =>
    cases h' with
    | plain _ h' => rw [ih h']
    | reference => exact absurd rfl hc
    | percent => exact absurd rfl hc
  | @reference name after out hname _ ih =>
    have hcut := Text.cut?_append hname.no_percent after
    generalize hrest : name ++ '%' :: after = rest at h' hcut
    cases h' with
    | plain hc => exact absurd rfl hc
    | reference hname' h' =>
      rw [Text.cut?_append hname'.no_percent] at hcut
      cases hcut
      rw [ih h']
    | percent hstay => exact absurd ⟨name, after, hrest.symm, hname⟩ hstay
  | percent hstay _ ih =>
    cases h' with
    | plain hc => exact absurd rfl hc
    | reference hname' => exact absurd ⟨_, _, rfl, hname'⟩ hstay
    | percent _ h' => rw [ih h']

theorem expands_iff {text out : List Char} :
    Expands (lookup environment v) text out ↔ out = expandFrom environment v text :=
  ⟨fun h => h.unique (expands_expandFrom text), fun h => h ▸ expands_expandFrom text⟩

end StudioMake.EnvironmentScript
