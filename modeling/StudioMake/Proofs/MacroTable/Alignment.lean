import StudioMake.Proofs.MacroTable.Seeding

/-!
# Tables that differ in some values

Two tables are aligned if they hold the same tokens in the same order and differ at most in the
values of some names. Setting one of these names in both takes it off the list, and seeding with
entries that are named like them puts nothing on it. When the list is empty, the tables are equal.
-/

set_option autoImplicit false

namespace StudioMake

def OrderedMap.filterKeys {α : Type} (p : String → Bool) (m : OrderedMap α) : OrderedMap α :=
  ⟨m.toList.filter fun entry => p entry.1, m.nodup.sublist (List.filter_sublist.map _)⟩

namespace MacroTable

variable {names vocabulary : List String} {name value : String} {m n k : MacroTable}

theorem set_congr {other : String} (h : token name = token other) :
    m.set name value = m.set other value := by
  rw [MacroTable.set, MacroTable.set, h]

theorem mem_tokens_set {key : String} (h : key ∈ m.tokens) : key ∈ (m.set name value).tokens := by
  rw [tokens_set]
  split
  · exact h
  · exact List.mem_append_left _ h

structure Aligned (names : List String) (m n : MacroTable) : Prop where
  tokens_eq : m.tokens = n.tokens
  present : ∀ name ∈ names, token name ∈ m.tokens
  agree : AgreeOutside names m n

namespace Aligned

theorem refl (h : ∀ name ∈ names, token name ∈ m.tokens) : Aligned names m m :=
  ⟨rfl, h, .refl names m⟩

theorem symm (h : Aligned names m n) : Aligned names n m :=
  ⟨h.tokens_eq.symm, fun name hn => h.tokens_eq ▸ h.present name hn,
    fun key hk => (h.agree key hk).symm⟩

theorem trans (h : Aligned names m n) (h' : Aligned names n k) : Aligned names m k :=
  ⟨h.tokens_eq.trans h'.tokens_eq, h.present,
    fun key hk => (h.agree key hk).trans (h'.agree key hk)⟩

theorem eq_of_nil (h : Aligned [] m n) : m = n :=
  eq_of_find? h.tokens_eq fun key _ => h.agree key List.not_mem_nil

theorem expand (h : Aligned names m n) {text : String}
    (ht : ∀ name ∈ names, Text.contains (token name) text = false) :
    m.expand text = n.expand text :=
  h.agree.expand ht

theorem set (h : Aligned names m n) (name value : String) :
    Aligned names (m.set name value) (n.set name value) where
  tokens_eq := by rw [tokens_set, tokens_set, h.tokens_eq]
  present := fun other ho => mem_tokens_set (h.present other ho)
  agree := h.agree.set name value

theorem set_head (h : Aligned (name :: names) m n) (value : String) :
    Aligned names (m.set name value) (n.set name value) where
  tokens_eq := by rw [tokens_set, tokens_set, h.tokens_eq]
  present := fun other ho => mem_tokens_set (h.present other (List.mem_cons_of_mem _ ho))
  agree := h.agree.set_head value

theorem set_left (h : Aligned names m n) (hn : name ∈ names) (value : String) :
    Aligned names (m.set name value) n where
  tokens_eq := by rw [tokens_set, if_pos (h.present name hn), h.tokens_eq]
  present := fun other ho => mem_tokens_set (h.present other ho)
  agree := h.agree.set_left hn value

theorem setAll {l : List String} (h : Aligned (l ++ names) m n) (value : String) :
    Aligned names (m.setAll l value) (n.setAll l value) := by
  induction l generalizing m n with
  | nil => exact h
  | cons name l ih => exact ih (h.set_head value)

theorem define (hb : ∀ name ∈ names, bare? name = none) (h : Aligned names m n)
    (l : List (String × String)) :
    Aligned names (l.foldl (fun m entry => m.set entry.1 entry.2) m)
      ((l.filter fun entry => nameOf entry.1 ∉ names).foldl
        (fun m entry => m.set entry.1 entry.2) n) := by
  induction l generalizing m n with
  | nil => exact h
  | cons entry l ih =>
    by_cases hn : nameOf entry.1 ∈ names
    · have hname : nameOf (nameOf entry.1) = nameOf entry.1 := by
        rw [nameOf, hb _ hn, Option.getD_none]
      have ht : token entry.1 = token (nameOf entry.1) := token_eq_iff.2 hname.symm
      rw [List.filter_cons_of_neg (by simpa using hn), List.foldl_cons, set_congr ht]
      exact ih (h.set_left hn entry.2)
    · rw [List.filter_cons_of_pos (by simpa using hn), List.foldl_cons, List.foldl_cons]
      exact ih (h.set entry.1 entry.2)

theorem seed (hv : IsVocabulary vocabulary) (hsub : ∀ name ∈ names, name ∈ vocabulary)
    (hm : m.tokens = vocabulary.map token) (h : Aligned names m n) (l : List (String × String)) :
    Aligned names (m.seed l)
      (n.seed (l.filter fun entry => !names.any (Text.sameIgnoringCase entry.1))) := by
  induction l generalizing m n with
  | nil => exact h
  | cons entry l ih =>
    have hn : n.tokens = vocabulary.map token := h.tokens_eq.symm.trans hm
    have hrest : m.seed (entry :: l) = (m.seed [entry]).seed l := rfl
    have htokens : (m.seed [entry]).tokens = vocabulary.map token := (tokens_seed [entry]).trans hm
    rw [hrest]
    cases hlike : names.any (Text.sameIgnoringCase entry.1) with
    | true =>
      obtain ⟨name, hname, hs⟩ := List.any_eq_true.1 hlike
      have hset : m.seed [entry] = m.set name entry.2 := by
        rw [MacroTable.seed, List.foldl_cons, List.foldl_nil,
          findToken?_of_same hv hm (hsub name hname) hs]
        exact set_congr (token_token name)
      rw [List.filter_cons_of_neg (by simp [hlike])]
      exact ih htokens (hset ▸ h.set_left hname entry.2)
    | false =>
      have hone : Aligned names (m.seed [entry]) (n.seed [entry]) := by
        rw [MacroTable.seed, MacroTable.seed, List.foldl_cons, List.foldl_cons, List.foldl_nil,
          List.foldl_nil, findToken?_eq hv hm, findToken?_eq hv hn]
        cases vocabulary.find? fun name => Text.sameIgnoringCase name entry.1 with
        | none => exact h
        | some name => exact h.set (token name) entry.2
      rw [List.filter_cons_of_pos (by simp [hlike])]
      exact ih htokens hone

end Aligned

end MacroTable

namespace Seeds

open MacroTable

/-- The seeds without those for some names: without the definitions of the names, bare or wrapped,
and the variables that are named like them up to letter case. -/
def without (names : List String) (s : Seeds) : Seeds where
  definitions := s.definitions.filter fun entry => nameOf entry.1 ∉ names
  assigned := s.assigned.filterKeys fun key => !names.any (Text.sameIgnoringCase key)

theorem aligned_without {names : List String} {format : Format}
    (hsub : ∀ name ∈ names, name ∈ vocabulary format) (s : Seeds) :
    Aligned names (s.macros format) ((s.without names).macros format) := by
  have hv := isVocabulary_vocabulary format
  have htokens := hv.tokens_ofVocabulary
  have hfresh : Aligned names (ofVocabulary ((vocabulary format).map token))
      (ofVocabulary ((vocabulary format).map token)) :=
    .refl fun name hn => htokens.symm ▸ List.mem_map_of_mem (hsub name hn)
  rw [macros, macros, fresh_eq]
  exact (hfresh.seed hv hsub htokens _).define (fun name hn => hv.bare name (hsub name hn)) _

/-- Seeds that differ for some names only give aligned tables. -/
theorem aligned_macros {names : List String} {format : Format}
    (hsub : ∀ name ∈ names, name ∈ vocabulary format) {s t : Seeds}
    (h : s.without names = t.without names) :
    Aligned names (s.macros format) (t.macros format) :=
  (aligned_without hsub s).trans (h ▸ (aligned_without hsub t).symm)

end Seeds

end StudioMake
