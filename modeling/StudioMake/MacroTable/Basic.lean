import StudioMake.OrderedMap
import StudioMake.Text.Search
import StudioMake.Text.Split

/-!
# Build macros

The values of the tokens `$(Name)` while a project is read. A token may be named with or without
its wrapper. Expansion goes through a text once from the left: a known token is replaced by its
value, which is not looked at again, and everything else stays as written.
-/

set_option autoImplicit false

namespace StudioMake

structure MacroTable where
  values : OrderedMap String
deriving DecidableEq

namespace MacroTable

def bare? (token : String) : Option String :=
  match token.toList with
  | '$' :: '(' :: rest =>
    if rest.getLast? = some ')' then some (String.ofList rest.dropLast) else none
  | _ => none

/-- The token for a name; a token stands for itself. -/
def token (name : String) : String :=
  if (bare? name).isSome then name else "$(" ++ name ++ ")"

def ofVocabulary (tokens : List String) : MacroTable :=
  ⟨OrderedMap.ofList (tokens.map fun token => (token, ""))⟩

def tokens (m : MacroTable) : List String := m.values.keys

def size (m : MacroTable) : Nat := m.values.size

def get? (m : MacroTable) (name : String) : Option String := m.values.find? (token name)

def contains (m : MacroTable) (name : String) : Bool := (m.get? name).isSome

def set (m : MacroTable) (name value : String) : MacroTable :=
  ⟨m.values.insert (token name) value⟩

def setAll (m : MacroTable) (names : List String) (value : String) : MacroTable :=
  names.foldl (fun m name => m.set name value) m

def findToken? (m : MacroTable) (name : String) : Option String :=
  m.tokens.find? fun token => (bare? token).any fun bare => Text.sameIgnoringCase bare name

/-- Sets the macros that variables are named like, up to letter case; other variables are left
out. -/
def seed (m : MacroTable) (values : List (String × String)) : MacroTable :=
  values.foldl
    (fun m entry =>
      match m.findToken? entry.1 with
      | some token => m.set token entry.2
      | none => m) m

/-- The values by bare name. -/
def properties (m : MacroTable) : OrderedMap String :=
  OrderedMap.ofList (m.values.toList.map fun entry => ((bare? entry.1).getD entry.1, entry.2))

def expandFrom (m : MacroTable) : List Char → List Char
  | [] => []
  | '$' :: '(' :: rest =>
    match h : Text.cut? ')' rest with
    | none => '$' :: '(' :: rest
    | some (name, after) =>
      have := Text.length_of_cut? h
      match m.values.find? (String.ofList ('$' :: '(' :: name ++ [')'])) with
      | some value => value.toList ++ expandFrom m after
      | none => '$' :: expandFrom m ('(' :: rest)
  | c :: rest => c :: expandFrom m rest
termination_by l => l.length

def expand (m : MacroTable) (text : String) : String :=
  String.ofList (m.expandFrom text.toList)

/-- Replaces the known tokens of a text that opens a token; any other text is not looked at. -/
def expandInPlace (m : MacroTable) (text : String) : String :=
  if Text.contains "$(" text then m.expand text else text

def nameOf (token : String) : String := (bare? token).getD token

theorem bare?_wrapped (name : String) : bare? ("$(" ++ name ++ ")") = some name := by
  simp [bare?]

theorem eq_wrapped_of_bare? {token name : String} (h : bare? token = some name) :
    token = "$(" ++ name ++ ")" := by
  unfold bare? at h
  split at h
  · next rest hl =>
    split at h
    · next hr =>
      cases h
      apply String.toList_inj.1
      rw [hl]
      obtain ⟨init, rfl⟩ := List.getLast?_eq_some_iff.1 hr
      simp
    · cases h
  · cases h

theorem bare?_token (name : String) : bare? (token name) = some (nameOf name) := by
  unfold token nameOf
  cases h : bare? name with
  | none => exact bare?_wrapped name
  | some bare => simp [h]

theorem token_eq_iff {name other : String} :
    token name = token other ↔ nameOf name = nameOf other := by
  constructor
  · intro h
    have hb := congrArg bare? h
    rw [bare?_token, bare?_token] at hb
    exact Option.some.inj hb
  · intro h
    rw [eq_wrapped_of_bare? (bare?_token name), eq_wrapped_of_bare? (bare?_token other), h]

theorem get?_set (m : MacroTable) (name value other : String) :
    (m.set name value).get? other = if token other = token name then some value else m.get? other :=
  OrderedMap.find?_insert m.values _ value _

theorem get?_set_self (m : MacroTable) (name value : String) :
    (m.set name value).get? name = some value := by
  rw [get?_set, if_pos rfl]

theorem get?_set_of_token_ne {m : MacroTable} {name other : String} (value : String)
    (h : token other ≠ token name) : (m.set name value).get? other = m.get? other := by
  rw [get?_set, if_neg h]

theorem get?_setAll_of_token_ne {m : MacroTable} {names : List String} {other : String}
    (value : String) (h : ∀ name ∈ names, token other ≠ token name) :
    (m.setAll names value).get? other = m.get? other := by
  induction names generalizing m with
  | nil => rfl
  | cons name rest ih =>
    rw [List.forall_mem_cons] at h
    rw [setAll, List.foldl_cons]
    exact (ih h.2).trans (get?_set_of_token_ne value h.1)

theorem tokens_set (m : MacroTable) (name value : String) :
    (m.set name value).tokens =
      if token name ∈ m.tokens then m.tokens else m.tokens ++ [token name] :=
  OrderedMap.keys_insert m.values _ value

end MacroTable

end StudioMake
