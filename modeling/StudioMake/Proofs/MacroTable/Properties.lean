import Mathlib.Data.List.Chain
import StudioMake.Proofs.Condition.EnumerationOrder
import StudioMake.Proofs.Condition.Printing
import StudioMake.Proofs.MacroTable.Expansion

/-!
# Macros as properties

A condition sees the macros by their bare names, and looks them up piece by piece in an operand
that has been split; other texts are expanded at once, by whole tokens. Both cut a text at the same
places, so where every name that is cut out has a macro they come to the same text.
-/

set_option autoImplicit false

namespace StudioMake

namespace MacroTable

variable {m : MacroTable}

theorem toList_properties (h : ∀ token ∈ m.tokens, (bare? token).isSome) :
    m.properties.toList = m.values.toList.map fun entry => (nameOf entry.1, entry.2) := by
  refine OrderedMap.toList_ofList ?_
  have hn : (m.tokens.map nameOf).Nodup := by
    refine List.Nodup.map_on ?_ m.values.nodup_keys
    intro t ht u hu he
    obtain ⟨a, ha⟩ := Option.isSome_iff_exists.1 (h t ht)
    obtain ⟨b, hb⟩ := Option.isSome_iff_exists.1 (h u hu)
    have hab : a = b := by simpa [nameOf, ha, hb] using he
    rw [eq_wrapped_of_bare? ha, eq_wrapped_of_bare? hb, hab]
  rw [List.map_map]
  rwa [tokens, OrderedMap.keys, List.map_map] at hn

theorem find?_properties (h : ∀ token ∈ m.tokens, (bare? token).isSome) {token name value : String}
    (hb : bare? token = some name) (hv : m.values.find? token = some value) :
    m.properties.find? name = some value := by
  rw [← OrderedMap.mem_toList_iff, toList_properties h, List.mem_map]
  refine ⟨(token, value), (OrderedMap.mem_toList_iff _).2 hv, ?_⟩
  simp [nameOf, hb]

end MacroTable

namespace Operand

/-- What splitting makes of a text: no text is empty, no two texts stand side by side, and a name
ends before the first `)`. -/
structure Separated (operand : Operand) : Prop where
  text_ne_empty : ∀ s, Part.text s ∈ operand → s ≠ ""
  isChain : operand.IsChain fun p q => p.name? = none → q.name? ≠ none
  closing_notMem : ∀ name ∈ operand.names, ')' ∉ name.toList

theorem names_append (a b : Operand) : names (a ++ b) = a.names ++ b.names :=
  List.filterMap_append

theorem names_property_cons (name : String) (operand : Operand) :
    names (.property name :: operand) = name :: operand.names := rfl

theorem separated_textPart (text : List Char) : (textPart text).Separated := by
  cases text with
  | nil => exact ⟨by simp [textPart], .nil, by simp [textPart, names]⟩
  | cons c text =>
    refine ⟨?_, .singleton _, by simp [textPart, names, Part.name?]⟩
    intro s hs
    obtain rfl : s = String.ofList (c :: text) := by simpa [textPart] using hs
    simp

theorem Separated.cons {name : String} {operand : Operand} (h : operand.Separated)
    (hn : ')' ∉ name.toList) : Separated (.property name :: operand) := by
  refine ⟨?_, ?_, ?_⟩
  · intro s hs
    exact h.text_ne_empty s (by simpa using hs)
  · exact h.isChain.cons (by simp [Part.name?])
  · rw [names_property_cons, List.forall_mem_cons]
    exact ⟨hn, h.closing_notMem⟩

theorem Separated.textPart_append {name : String} {operand : Operand}
    (h : Separated (.property name :: operand)) (text : List Char) :
    Separated (textPart text ++ .property name :: operand) := by
  have ht := separated_textPart text
  refine ⟨?_, ?_, ?_⟩
  · intro s hs
    rcases List.mem_append.1 hs with hs | hs
    · exact ht.text_ne_empty s hs
    · exact h.text_ne_empty s hs
  · refine List.isChain_append.2 ⟨ht.isChain, h.isChain, ?_⟩
    simp [Part.name?]
  · rw [names_append, List.forall_mem_append]
    exact ⟨ht.closing_notMem, h.closing_notMem⟩

theorem separated_splitFrom (text l : List Char) : (splitFrom text l).Separated := by
  fun_induction splitFrom text l with
  | case1 text => exact separated_textPart text
  | case2 text rest _ => exact separated_textPart _
  | case3 text rest name after h _ ih =>
    have hn : ')' ∉ (String.ofList name).toList := by simpa using (Text.eq_of_cut? h).2
    exact (ih.cons hn).textPart_append text
  | case4 text c rest _ ih => exact ih

end Operand

namespace Condition.Scope

open MacroTable

variable {scope : Scope} {m : MacroTable}

theorem expand_append (a b : Operand) :
    scope.expand (a ++ b) = scope.expand a ++ scope.expand b := by
  simp [expand]

theorem expand_textPart (text : List Char) :
    scope.expand (Operand.textPart text) = String.ofList text := by
  unfold Operand.textPart
  cases text with
  | nil => rfl
  | cons c text => simp [expand, expandPart]

theorem expand_splitFrom (text : List Char) {l : List Char}
    (h : ∀ name ∈ (Operand.splitFrom text l).names,
      m.values.find? ("$(" ++ name ++ ")") = some (scope.property name)) :
    scope.expand (Operand.splitFrom text l) = String.ofList (text ++ m.expandFrom l) := by
  fun_induction Operand.splitFrom text l with
  | case1 text => rw [expand_textPart, expandFrom, List.append_nil]
  | case2 text rest hc => rw [expand_textPart, expandFrom_unclosed hc]
  | case3 text rest name after hc _ ih =>
    rw [Operand.names_append, Operand.names_property_cons, List.forall_mem_append,
      List.forall_mem_cons] at h
    have hv : m.values.find? (String.ofList ('$' :: '(' :: name ++ [')'])) =
        some (scope.property (String.ofList name)) := by
      rw [← h.2.1]
      congr 1
      apply String.toList_inj.1
      simp
    rw [expand_append, expand_textPart, ← List.singleton_append, expand_append, ih h.2.2,
      expandFrom_known hc hv]
    apply String.toList_inj.1
    simp [expand, expandPart]
  | case4 text c rest hcopy ih =>
    rw [ih h, expandFrom_copy (fun after hc hr => hcopy after hc hr), List.append_assoc,
      List.singleton_append]

end Condition.Scope

namespace Operand

open Condition MacroTable

/-- Splitting a text loses nothing and cuts out names and the texts between them. Under the
properties of a table of tokens, in whatever order, its parts come to the expansion of the text,
provided that every name that is cut out has a macro. -/
theorem expand_split (s : String) :
    (split s).written = s ∧ (split s).Separated ∧
      ∀ (m : MacroTable), (∀ token ∈ m.tokens, (bare? token).isSome) →
        (∀ name ∈ (split s).names, ∃ token ∈ m.tokens, bare? token = some name) →
          ∀ (properties : OrderedMap String), m.properties.toList.Perm properties.toList →
            ∀ (directory : String) (fs : FileSystem),
              Scope.expand ⟨properties, directory, fs⟩ (split s) = m.expand s := by
  refine ⟨written_split s, separated_splitFrom [] s.toList, ?_⟩
  intro m hm hs properties hp directory fs
  refine Scope.expand_splitFrom [] fun name hn => ?_
  obtain ⟨token, ht, hb⟩ := hs name hn
  obtain ⟨value, hv⟩ : ∃ value, m.values.find? token = some value := by
    simpa [tokens, OrderedMap.keys, OrderedMap.mem_toList_iff] using ht
  have hf : properties.find? name = some value := by
    rw [← OrderedMap.find?_eq_of_perm hp, find?_properties hm hb hv]
  rw [← eq_wrapped_of_bare? hb, hv, Scope.property_of_key hf]

def unclosedText : String := "$(A)-$$(B)$(C"

def unclosedMacros : MacroTable := ⟨.ofList [("$(B)", "$(A)"), ("$(A)", "1")]⟩

theorem expand_split_unclosed :
    split unclosedText = [.property "A", .text "-$", .property "B", .text "$(C"] ∧
      (split unclosedText).written = unclosedText ∧ (split unclosedText).Separated ∧
      (∀ token ∈ unclosedMacros.tokens, (bare? token).isSome) ∧
      (∀ name ∈ (split unclosedText).names, ∃ token ∈ unclosedMacros.tokens,
        bare? token = some name) ∧
      Scope.expand ⟨.ofList [("A", "1"), ("B", "$(A)")], "/work", {}⟩ (split unclosedText) =
        unclosedMacros.expand unclosedText ∧
      unclosedMacros.expand unclosedText = "1-$$(A)$(C" := by
  have hs : split unclosedText = [.property "A", .text "-$", .property "B", .text "$(C"] := by
    decide +kernel
  have hm : ∀ token ∈ unclosedMacros.tokens, (bare? token).isSome := by decide +kernel
  have hn : ∀ name ∈ (split unclosedText).names, ∃ token ∈ unclosedMacros.tokens,
      bare? token = some name := by
    rw [hs]
    decide +kernel
  obtain ⟨hw, hc, he⟩ := expand_split unclosedText
  exact ⟨hs, hw, hc, hm, hn, he unclosedMacros hm hn _ (by decide +kernel) "/work" {},
    by decide +kernel⟩

end Operand

end StudioMake
