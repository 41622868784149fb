import StudioMake.MacroTable.Basic
import StudioMake.Text.Search

/-!
# What an expansion depends on

The expansion of a text looks up the tokens that are written in the text, and no others. So a text
without tokens stays as it is, and tables that differ in a few macros expand a text alike in which
these are not written.
-/

set_option autoImplicit false

namespace StudioMake.MacroTable

variable {m n : MacroTable} {names : List String}

theorem expandFrom_unclosed {rest : List Char} (h : Text.cut? ')' rest = none) :
    m.expandFrom ('$' :: '(' :: rest) = '$' :: '(' :: rest := by
  grind [expandFrom]

theorem expandFrom_known {rest name after : List Char} {value : String}
    (h : Text.cut? ')' rest = some (name, after))
    (hv : m.values.find? (String.ofList ('$' :: '(' :: name ++ [')'])) = some value) :
    m.expandFrom ('$' :: '(' :: rest) = value.toList ++ m.expandFrom after := by
  grind [expandFrom]

theorem expandFrom_unknown {rest name after : List Char}
    (h : Text.cut? ')' rest = some (name, after))
    (hv : m.values.find? (String.ofList ('$' :: '(' :: name ++ [')'])) = none) :
    m.expandFrom ('$' :: '(' :: rest) = '$' :: m.expandFrom ('(' :: rest) := by
  grind [expandFrom]

theorem expandFrom_copy {c : Char} {rest : List Char}
    (h : ∀ after, c = '$' → rest = '(' :: after → False) :
    m.expandFrom (c :: rest) = c :: m.expandFrom rest := by
  grind [expandFrom]

theorem infix_of_cut? {rest name after : List Char} (h : Text.cut? ')' rest = some (name, after)) :
    '$' :: '(' :: name ++ [')'] <:+: '$' :: '(' :: rest := by
  rw [(Text.eq_of_cut? h).1]
  exact ⟨[], after, by simp⟩

theorem suffix_of_cut? {rest name after : List Char}
    (h : Text.cut? ')' rest = some (name, after)) : after <:+ '$' :: '(' :: rest := by
  rw [(Text.eq_of_cut? h).1]
  exact ⟨'$' :: '(' :: name ++ [')'], by simp⟩

/-- Two tables that give the tokens in a text the same values expand it alike. -/
theorem expandFrom_congr (text : List Char)
    (h : ∀ token : List Char, token <:+: text →
      m.values.find? (String.ofList token) = n.values.find? (String.ofList token)) :
    m.expandFrom text = n.expandFrom text := by
  fun_induction m.expandFrom text with
  | case1 => rw [expandFrom]
  | case2 rest hc => rw [expandFrom_unclosed hc]
  | case3 rest name after hc _ value hv ih =>
    rw [h _ (infix_of_cut? hc)] at hv
    rw [expandFrom_known hc hv, ih]
    intro token ht
    exact h token (ht.trans (suffix_of_cut? hc).isInfix)
  | case4 rest name after hc _ hv ih =>
    rw [h _ (infix_of_cut? hc)] at hv
    rw [expandFrom_unknown hc hv, ih]
    intro token ht
    exact h token (ht.trans (List.suffix_cons _ _).isInfix)
  | case5 c rest hcopy ih =>
    rw [expandFrom_copy hcopy, ih]
    intro token ht
    exact h token (ht.trans (List.suffix_cons _ _).isInfix)

theorem expandFrom_eq_self (text : List Char)
    (h : ∀ token : List Char, token <:+: text → m.values.find? (String.ofList token) = none) :
    m.expandFrom text = text := by
  fun_induction m.expandFrom text with
  | case1 => rfl
  | case2 rest hc => rfl
  | case3 rest name after hc _ value hv ih =>
    rw [h _ (infix_of_cut? hc)] at hv
    cases hv
  | case4 rest name after hc _ hv ih =>
    rw [ih]
    intro token ht
    exact h token (ht.trans (List.suffix_cons _ _).isInfix)
  | case5 c rest hcopy ih =>
    rw [ih]
    intro token ht
    exact h token (ht.trans (List.suffix_cons _ _).isInfix)

theorem expand_eq_self {text : String} (h : ∀ token ∈ m.tokens, Text.contains token text = false) :
    m.expand text = text := by
  rw [expand, expandFrom_eq_self, String.ofList_toList]
  intro token ht
  rw [OrderedMap.find?_eq_none_iff]
  intro hm
  have hn := h _ hm
  rw [Bool.eq_false_iff, ne_eq, Text.contains_iff, String.toList_ofList] at hn
  exact hn ht

theorem expand_of_no_opening {text : String} (h : ¬ ['$', '('] <:+: text.toList) :
    m.expand text = text := by
  have hl : ∀ l : List Char, ¬ ['$', '('] <:+: l → m.expandFrom l = l := by
    intro l hl
    induction l with
    | nil => rw [expandFrom]
    | cons c rest ih =>
      rw [expandFrom_copy, ih fun hi => hl (hi.trans (List.suffix_cons c rest).isInfix)]
      rintro after rfl rfl
      exact hl ⟨[], after, rfl⟩
  rw [expand, hl _ h, String.ofList_toList]

theorem expand_of_no_dollar {text : String} (h : '$' ∉ text.toList) : m.expand text = text :=
  expand_of_no_opening fun hi => h (hi.subset List.mem_cons_self)

theorem expand_token {name value : String} (hn : ')' ∉ name.toList)
    (h : m.get? name = some value) : m.expand ("$(" ++ name ++ ")") = value := by
  have hb : bare? name = none := by
    unfold bare?
    split
    · next rest hl =>
      rw [if_neg]
      intro hr
      exact hn (hl ▸ List.mem_cons_of_mem _ (List.mem_cons_of_mem _ (List.mem_of_getLast? hr)))
    · rfl
  have hv : m.values.find? (String.ofList ('$' :: '(' :: name.toList ++ [')'])) = some value := by
    rw [get?, token, hb] at h
    rw [← h]
    congr 1
    apply String.toList_inj.1
    simp
  have hl : ("$(" ++ name ++ ")").toList = '$' :: '(' :: (name.toList ++ ')' :: []) := by simp
  rw [expand, hl, expandFrom_known (Text.cut?_append hn []) hv, expandFrom, List.append_nil,
    String.ofList_toList]

/-- Two tables agree on all tokens but for those of some names. -/
def AgreeOutside (names : List String) (m n : MacroTable) : Prop :=
  ∀ key, key ∉ names.map token → m.values.find? key = n.values.find? key

namespace AgreeOutside

theorem refl (names : List String) (m : MacroTable) : AgreeOutside names m m :=
  fun _ _ => rfl

theorem weaken (h : AgreeOutside names m n) (name : String) : AgreeOutside (name :: names) m n := by
  intro key hk
  apply h key
  intro hm
  exact hk (List.mem_cons_of_mem _ hm)

theorem set_head {name : String} (h : AgreeOutside (name :: names) m n) (value : String) :
    AgreeOutside names (m.set name value) (n.set name value) := by
  intro key hk
  rw [MacroTable.set, MacroTable.set, OrderedMap.find?_insert, OrderedMap.find?_insert]
  by_cases he : key = token name
  · rw [if_pos he, if_pos he]
  · rw [if_neg he, if_neg he]
    apply h key
    simpa [he] using hk

theorem set (h : AgreeOutside names m n) (name value : String) :
    AgreeOutside names (m.set name value) (n.set name value) :=
  (h.weaken name).set_head value

theorem set_left (h : AgreeOutside names m n) {name : String} (hn : name ∈ names)
    (value : String) : AgreeOutside names (m.set name value) n := by
  intro key hk
  have hne : key ≠ token name := by
    intro he
    exact hk (he ▸ List.mem_map_of_mem hn)
  rw [MacroTable.set, OrderedMap.find?_insert, if_neg hne]
  exact h key hk

theorem expand (h : AgreeOutside names m n) {text : String}
    (ht : ∀ name ∈ names, Text.contains (token name) text = false) :
    m.expand text = n.expand text := by
  rw [MacroTable.expand, MacroTable.expand, expandFrom_congr]
  intro token hi
  apply h
  intro hm
  obtain ⟨name, hn, he⟩ := List.mem_map.1 hm
  have hc := ht name hn
  rw [Bool.eq_false_iff, ne_eq, Text.contains_iff, he, String.toList_ofList] at hc
  exact hc hi

end AgreeOutside

end StudioMake.MacroTable
