import Mathlib.Data.List.Find
import StudioMake.Proofs.MacroTable.Expansion
import StudioMake.Proofs.OrderedMap
import StudioMake.Seeds

/-!
# Seeding a table

Variables set the macros that are named like them up to letter case. The names of a vocabulary are
told apart even so, and a variable adds no macro, so the last variable that is named like a macro
gives it its value.
-/

set_option autoImplicit false

namespace StudioMake

def valueFor? (name : String) (entry : String × String) : Option String :=
  if Text.sameIgnoringCase entry.1 name then some entry.2 else none

/-- The value of the last entry that bears a name up to letter case. -/
def lastFor? (name : String) (l : List (String × String)) : Option String :=
  lastSome? (valueFor? name) l

namespace MacroTable

variable {names : List String} {m n : MacroTable}

theorem eq_of_find? (ht : m.tokens = n.tokens)
    (hf : ∀ key ∈ m.tokens, m.values.find? key = n.values.find? key) : m = n := by
  have hvalues : m.values = n.values := OrderedMap.eq_of_find? ht hf
  cases m
  cases n
  exact congrArg MacroTable.mk hvalues

/-- Names that can be told apart up to letter case, none of which is itself a token. -/
structure IsVocabulary (names : List String) : Prop where
  nodup : (names.map Text.lower).Nodup
  bare : ∀ name ∈ names, bare? name = none

instance : DecidablePred IsVocabulary := fun names =>
  decidable_of_iff ((names.map Text.lower).Nodup ∧ ∀ name ∈ names, bare? name = none)
    ⟨fun h => ⟨h.1, h.2⟩, fun h => ⟨h.nodup, h.bare⟩⟩

namespace IsVocabulary

theorem nameOf_eq (h : IsVocabulary names) {name : String} (hn : name ∈ names) :
    nameOf name = name := by
  rw [nameOf, h.bare name hn, Option.getD_none]

theorem eq_of_same (h : IsVocabulary names) {a b : String} (ha : a ∈ names) (hb : b ∈ names)
    (hs : Text.lower a = Text.lower b) : a = b :=
  List.inj_on_of_nodup_map h.nodup ha hb hs

theorem token_inj (h : IsVocabulary names) {a b : String} (ha : a ∈ names) (hb : b ∈ names) :
    token a = token b ↔ a = b := by
  rw [token_eq_iff, h.nameOf_eq ha, h.nameOf_eq hb]

theorem nodup_tokens (h : IsVocabulary names) : (names.map token).Nodup :=
  List.Nodup.map_on (fun _ ha _ hb => (h.token_inj ha hb).1) (List.Nodup.of_map _ h.nodup)

theorem toList_ofVocabulary (h : IsVocabulary names) :
    (ofVocabulary (names.map token)).values.toList = names.map fun name => (token name, "") := by
  have hkeys : (((names.map token).map fun t => (t, "")).map Prod.fst).Nodup := by
    rw [List.map_map]
    exact (List.map_id (names.map token)).symm ▸ h.nodup_tokens
  rw [ofVocabulary, OrderedMap.toList_ofList hkeys, List.map_map]
  rfl

theorem tokens_ofVocabulary (h : IsVocabulary names) :
    (ofVocabulary (names.map token)).tokens = names.map token := by
  rw [tokens, OrderedMap.keys, h.toList_ofVocabulary, List.map_map]
  rfl

theorem get?_ofVocabulary (h : IsVocabulary names) {name : String} (hn : name ∈ names) :
    (ofVocabulary (names.map token)).get? name = some "" := by
  rw [get?, ← OrderedMap.mem_toList_iff, h.toList_ofVocabulary]
  exact List.mem_map_of_mem hn

end IsVocabulary

theorem isVocabulary_vcprojNames : IsVocabulary vcprojNames := by decide +kernel

theorem isVocabulary_msbuildNames : IsVocabulary msbuildNames := by decide +kernel

section Seeding

theorem token_token (name : String) : token (token name) = token name := by
  rw [token, bare?_token, Option.isSome_some, if_pos rfl]

theorem mem_of_findToken? {name t : String} (h : m.findToken? name = some t) :
    t ∈ m.tokens ∧ token t = t := by
  refine ⟨List.mem_of_find?_eq_some h, ?_⟩
  have hb := List.find?_some h
  rw [Option.any_eq_true] at hb
  obtain ⟨bare, hb, -⟩ := hb
  rw [token, hb, Option.isSome_some, if_pos rfl]

theorem tokens_seed (l : List (String × String)) : (m.seed l).tokens = m.tokens := by
  induction l generalizing m with
  | nil => rfl
  | cons entry l ih =>
    rw [seed, List.foldl_cons]
    refine ih.trans ?_
    split
    · next t ht =>
      obtain ⟨hm, htoken⟩ := mem_of_findToken? ht
      rw [tokens_set, htoken, if_pos hm]
    · rfl

variable (hv : IsVocabulary names) (ht : m.tokens = names.map token)
include hv ht

theorem findToken?_eq (name : String) : m.findToken? name =
    (names.find? fun n => Text.sameIgnoringCase n name).map token := by
  rw [findToken?, ht, List.find?_map]
  refine congrArg _ (List.find?_congr fun n hn => ?_)
  rw [Function.comp_apply, bare?_token, hv.nameOf_eq hn, Option.any_some]

theorem findToken?_of_same {name other : String} (hn : name ∈ names)
    (hs : Text.sameIgnoringCase other name = true) : m.findToken? other = some (token name) := by
  rw [Text.sameIgnoringCase_iff] at hs
  obtain ⟨n, hf⟩ := Option.isSome_iff_exists.1
    (List.find?_isSome (p := fun n => Text.sameIgnoringCase n other).2
      ⟨name, hn, Text.sameIgnoringCase_iff.2 hs.symm⟩)
  have hs' := List.find?_some hf
  rw [Text.sameIgnoringCase_iff] at hs'
  rw [findToken?_eq hv ht, hf, hv.eq_of_same (List.mem_of_find?_eq_some hf) hn (hs'.trans hs)]
  rfl

theorem get?_seed_singleton {name : String} (hn : name ∈ names) (entry : String × String) :
    (m.seed [entry]).get? name = (valueFor? name entry).or (m.get? name) := by
  rw [seed, List.foldl_cons, List.foldl_nil]
  by_cases hs : Text.sameIgnoringCase entry.1 name = true
  · rw [findToken?_of_same hv ht hn hs, valueFor?, if_pos hs, Option.some_or]
    exact (get?_set _ _ _ _).trans (if_pos (token_token name).symm)
  · rw [findToken?_eq hv ht, valueFor?, if_neg hs, Option.none_or]
    cases hf : names.find? fun n => Text.sameIgnoringCase n entry.1 with
    | none => rfl
    | some n =>
      have hne : name ≠ n := by
        rintro rfl
        have hsame := List.find?_some hf
        rw [Text.sameIgnoringCase_iff] at hsame hs
        exact hs hsame.symm
      refine get?_set_of_token_ne _ fun he => hne ?_
      rw [token_token] at he
      exact (hv.token_inj hn (List.mem_of_find?_eq_some hf)).1 he

theorem get?_seed {name : String} (hn : name ∈ names) (l : List (String × String)) :
    (m.seed l).get? name = (lastFor? name l).or (m.get? name) := by
  induction l generalizing m with
  | nil => rfl
  | cons entry l ih =>
    have htokens : (m.seed [entry]).tokens = names.map token := (tokens_seed [entry]).trans ht
    have hrest : m.seed (entry :: l) = (m.seed [entry]).seed l := rfl
    rw [hrest, ih htokens, get?_seed_singleton hv ht hn, lastFor?, lastFor?, lastSome?_cons,
      Option.or_assoc]

end Seeding

end MacroTable

namespace Seeds

open MacroTable

/-- The names of the macros that the reading of a project starts with. -/
def vocabulary (format : Format) : List String :=
  if format = .vcxproj then msbuildNames else vcprojNames

theorem isVocabulary_vocabulary (format : Format) : IsVocabulary (vocabulary format) := by
  unfold vocabulary
  split
  · exact isVocabulary_msbuildNames
  · exact isVocabulary_vcprojNames

theorem fresh_eq (format : Format) :
    (if format = .vcxproj then msbuild else vcproj) =
      ofVocabulary ((vocabulary format).map token) := by
  unfold vocabulary
  split <;> rfl

theorem tokens_macros {s : Seeds} (hs : s.definitions = []) (format : Format) :
    (s.macros format).tokens = (vocabulary format).map token := by
  rw [macros, hs, fresh_eq]
  exact (tokens_seed _).trans (isVocabulary_vocabulary format).tokens_ofVocabulary

/-- The last variable that is named like a macro gives it its value, where there are no
definitions. -/
theorem get?_macros {s : Seeds} (hs : s.definitions = []) {format : Format} {name : String}
    (hn : name ∈ vocabulary format) :
    (s.macros format).get? name = some ((lastFor? name s.assigned.toList).getD "") := by
  have hv := isVocabulary_vocabulary format
  rw [macros, hs, fresh_eq]
  refine (get?_seed hv hv.tokens_ofVocabulary hn _).trans ?_
  rw [hv.get?_ofVocabulary hn]
  cases lastFor? name s.assigned.toList <;> rfl

theorem macros_eq_iff {s t : Seeds} (hs : s.definitions = []) (ht : t.definitions = [])
    (format : Format) : s.macros format = t.macros format ↔
      ∀ name ∈ vocabulary format, (s.macros format).get? name = (t.macros format).get? name := by
  constructor
  · intro h name _
    rw [h]
  · intro h
    have hkeys : (s.macros format).tokens = (t.macros format).tokens :=
      (tokens_macros hs format).trans (tokens_macros ht format).symm
    refine eq_of_find? hkeys fun key hk => ?_
    have hk : key ∈ (vocabulary format).map token := tokens_macros hs format ▸ hk
    obtain ⟨name, hn, rfl⟩ := List.mem_map.1 hk
    exact h name hn

end Seeds

end StudioMake
