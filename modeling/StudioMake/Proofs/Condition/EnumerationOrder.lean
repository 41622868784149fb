import Mathlib.Data.List.Nodup
import Mathlib.Data.List.Perm.Basic
import StudioMake.Condition.Evaluation

/-!
# The order of properties

A condition looks a name up exactly before it looks for another spelling, and of several spellings
the first one counts. So the order of the entries shows in a name that is not there itself and has
spellings with different values, and in no other.
-/

set_option autoImplicit false

namespace StudioMake

theorem map_find?_of_perm {α β : Type} {l l' : List α} {p : α → Bool} {f : α → β}
    (h : l.Perm l') (hs : ∀ a ∈ l, ∀ b ∈ l, p a = true → p b = true → f a = f b) :
    (l.find? p).map f = (l'.find? p).map f := by
  cases ha : l.find? p with
  | none =>
    have hb : l'.find? p = none := by
      rw [List.find?_eq_none] at ha ⊢
      intro b hb
      exact ha b (h.mem_iff.2 hb)
    rw [hb]
  | some a =>
    have hma : a ∈ l := List.mem_of_find?_eq_some ha
    have hpa : p a = true := List.find?_some ha
    cases hb : l'.find? p with
    | none => exact absurd hpa (List.find?_eq_none.1 hb a (h.mem_iff.1 hma))
    | some b =>
      have hmb : b ∈ l := h.mem_iff.2 (List.mem_of_find?_eq_some hb)
      have hpb : p b = true := List.find?_some hb
      rw [Option.map_some, Option.map_some, hs a hma b hmb hpa hpb]

namespace OrderedMap

variable {α : Type} {m m' : OrderedMap α}

theorem find?_eq_of_perm (h : m.toList.Perm m'.toList) (key : String) :
    m.find? key = m'.find? key := by
  apply Option.ext
  intro value
  rw [← mem_toList_iff, ← mem_toList_iff, h.mem_iff]

theorem perm_of_find?_eq (h : ∀ key, m.find? key = m'.find? key) : m.toList.Perm m'.toList := by
  have hm : m.toList.Nodup := .of_map Prod.fst m.nodup
  have hm' : m'.toList.Nodup := .of_map Prod.fst m'.nodup
  rw [List.perm_ext_iff_of_nodup hm hm']
  rintro ⟨key, value⟩
  rw [mem_toList_iff, mem_toList_iff, h]

theorem perm_insert (h : m.toList.Perm m'.toList) (key : String) (value : α) :
    (m.insert key value).toList.Perm (m'.insert key value).toList := by
  apply perm_of_find?_eq
  intro other
  rw [find?_insert, find?_insert, find?_eq_of_perm h]

theorem perm_keys (h : m.toList.Perm m'.toList) : m.keys.Perm m'.keys := h.map Prod.fst

def reverse (m : OrderedMap α) : OrderedMap α :=
  ⟨m.toList.reverse, by rw [List.map_reverse]; exact List.nodup_reverse.2 m.nodup⟩

theorem perm_reverse (m : OrderedMap α) : m.toList.Perm m.reverse.toList :=
  (List.reverse_perm m.toList).symm

theorem exists_perm_cons {entry : String × α} (h : entry ∈ m.toList) :
    ∃ (m' : OrderedMap α) (rest : List (String × α)),
      m.toList.Perm m'.toList ∧ m'.toList = entry :: rest := by
  obtain ⟨before, after, hl⟩ := List.append_of_mem h
  have hp : m.toList.Perm (entry :: (before ++ after)) := hl ▸ List.perm_middle
  have hn : ((entry :: (before ++ after)).map Prod.fst).Nodup :=
    (hp.map Prod.fst).nodup_iff.1 m.nodup
  exact ⟨⟨_, hn⟩, _, hp, rfl⟩

/-- A name has one value in a map: it is a key, or all its spellings have the same value. -/
def Settled (m : OrderedMap α) (name : String) : Prop :=
  name ∈ m.keys ∨ ∀ a ∈ m.toList, ∀ b ∈ m.toList,
    Text.sameIgnoringCase a.1 name = true → Text.sameIgnoringCase b.1 name = true → a.2 = b.2

end OrderedMap

def Part.name? : Part → Option String
  | .text _ => none
  | .property name => some name

def Operand.names (operand : Operand) : List String := operand.filterMap Part.name?

namespace Condition

def names : Condition → List String
  | .equal a b => a.names ++ b.names
  | .notEqual a b => a.names ++ b.names
  | .call _ a => a.names
  | .not c => c.names
  | .and a b => a.names ++ b.names
  | .or a b => a.names ++ b.names

variable {directory : String} {fs : FileSystem} {m m' : OrderedMap String}

namespace Scope

theorem property_of_key {name value : String} (h : m.find? name = some value) :
    property ⟨m, directory, fs⟩ name = value := by
  rw [property, h]

theorem property_of_notKey {name : String} (h : name ∉ m.keys) :
    property ⟨m, directory, fs⟩ name = ((m.findIgnoringCase? name).map Prod.snd).getD "" := by
  rw [property, (m.find?_eq_none_iff name).2 h]

theorem property_eq_of_settled (h : m.toList.Perm m'.toList) {name : String}
    (hs : m.Settled name) :
    property ⟨m, directory, fs⟩ name = property ⟨m', directory, fs⟩ name := by
  cases hf : m.find? name with
  | some value =>
    have hf' : m'.find? name = some value := OrderedMap.find?_eq_of_perm h name ▸ hf
    rw [property_of_key hf, property_of_key hf']
  | none =>
    have hk : name ∉ m.keys := (m.find?_eq_none_iff name).1 hf
    have hk' : name ∉ m'.keys := fun hm => hk ((OrderedMap.perm_keys h).mem_iff.2 hm)
    rw [property_of_notKey hk, property_of_notKey hk']
    have hv : (m.findIgnoringCase? name).map Prod.snd = (m'.findIgnoringCase? name).map Prod.snd :=
      map_find?_of_perm h (hs.resolve_left hk)
    rw [hv]

theorem property_of_front {entry : String × String} {rest : List (String × String)} {name : String}
    (hl : m.toList = entry :: rest) (hk : name ∉ m.keys)
    (hs : Text.sameIgnoringCase entry.1 name = true) :
    property ⟨m, directory, fs⟩ name = entry.2 := by
  rw [property_of_notKey hk, OrderedMap.findIgnoringCase?, hl, List.find?_cons, hs]
  rfl

theorem settled_iff (directory : String) (fs : FileSystem) (m : OrderedMap String)
    (name : String) :
    m.Settled name ↔ ∀ m' : OrderedMap String, m.toList.Perm m'.toList →
      property ⟨m', directory, fs⟩ name = property ⟨m, directory, fs⟩ name := by
  constructor
  · intro hs m' h
    exact (property_eq_of_settled h hs).symm
  · intro h
    by_cases hk : name ∈ m.keys
    · exact .inl hk
    · have hfront : ∀ a ∈ m.toList, Text.sameIgnoringCase a.1 name = true →
          a.2 = property ⟨m, directory, fs⟩ name := by
        intro a ha hs
        obtain ⟨m', rest, hp, hl⟩ := OrderedMap.exists_perm_cons ha
        have hk' : name ∉ m'.keys := fun hm => hk ((OrderedMap.perm_keys hp).mem_iff.2 hm)
        rw [← h m' hp, property_of_front hl hk' hs]
      right
      intro a ha b hb hsa hsb
      rw [hfront a ha hsa, hfront b hb hsb]

theorem expand_eq_of_settled (h : m.toList.Perm m'.toList) {operand : Operand}
    (hs : ∀ name ∈ operand.names, m.Settled name) :
    expand ⟨m, directory, fs⟩ operand = expand ⟨m', directory, fs⟩ operand := by
  have hparts : operand.map (expandPart ⟨m, directory, fs⟩) =
      operand.map (expandPart ⟨m', directory, fs⟩) := by
    apply List.map_congr_left
    intro part hm
    cases part with
    | text s => rfl
    | property name =>
      exact property_eq_of_settled h (hs name (List.mem_filterMap.2 ⟨_, hm, rfl⟩))
  rw [expand, hparts, expand]

end Scope

/-- A condition whose names are settled has one answer in all orders. -/
theorem eval_eq_of_settled (h : m.toList.Perm m'.toList) {c : Condition}
    (hs : ∀ name ∈ c.names, m.Settled name) :
    eval ⟨m, directory, fs⟩ c = eval ⟨m', directory, fs⟩ c := by
  induction c with
  | equal a b =>
    rw [names, List.forall_mem_append] at hs
    rw [eval, eval, Scope.expand_eq_of_settled h hs.1, Scope.expand_eq_of_settled h hs.2]
  | notEqual a b =>
    rw [names, List.forall_mem_append] at hs
    rw [eval, eval, Scope.expand_eq_of_settled h hs.1, Scope.expand_eq_of_settled h hs.2]
  | call predicate a =>
    cases predicate with
    | pathExists => rw [eval, eval, Scope.expand_eq_of_settled h hs]; rfl
    | hasTrailingSlash => rw [eval, eval, Scope.expand_eq_of_settled h hs]
  | not c ih => rw [eval, eval, ih hs]
  | and a b iha ihb =>
    rw [names, List.forall_mem_append] at hs
    rw [eval, eval, iha hs.1, ihb hs.2]
  | or a b iha ihb =>
    rw [names, List.forall_mem_append] at hs
    rw [eval, eval, iha hs.1, ihb hs.2]

theorem holds_eq_of_settled (h : m.toList.Perm m'.toList) {text? : Option String}
    (hs : ∀ text c, text? = some text → parse? text = some c → ∀ name ∈ c.names, m.Settled name) :
    holds ⟨m, directory, fs⟩ text? = holds ⟨m', directory, fs⟩ text? := by
  unfold holds
  split
  · rfl
  · next text =>
    split
    · rfl
    · split
      · next c hc => rw [eval_eq_of_settled h (hs text c rfl hc)]
      · rfl

end Condition

end StudioMake
