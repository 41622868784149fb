import StudioMake.Proofs.MacroTable.Expansion

/-!
# Expansion is replacement from the left

What a table makes of a text, place by place: where the rest of the text begins with a token of the
table, the value of the token is put for it; any other character stays. A value is never looked at
again, and an opening without a token keeps its characters one by one, so that a token inside it is
still replaced.

`expand_eq_replace` says that both ways to expand a text come to this.
-/

set_option autoImplicit false

namespace StudioMake.MacroTable

section Scanning

def isToken (key : String) : Bool := (bare? key).any fun name => ')' ∉ name.toList

def entryAt? (m : MacroTable) (text : List Char) : Option (String × String) :=
  m.values.toList.find? fun entry => isToken entry.1 && entry.1.toList.isPrefixOf text

/-- What a scan passes at one place of a text. -/
inductive Piece where
  | kept (c : Char)
  | replaced (token value : String)
deriving DecidableEq

namespace Piece

def written : Piece → List Char
  | kept c => [c]
  | replaced token _ => token.toList

def expanded : Piece → List Char
  | kept c => [c]
  | replaced _ value => value.toList

end Piece

/-- Passes a text from the left, a token of the table at once and else one character. -/
def scan (m : MacroTable) : List Char → List Piece
  | [] => []
  | c :: rest =>
    match m.entryAt? (c :: rest) with
    | some (token, value) => .replaced token value :: m.scan (rest.drop (token.toList.length - 1))
    | none => .kept c :: m.scan rest
termination_by text => text.length
decreasing_by all_goals simp only [List.length_drop, List.length_cons]; omega

/-- Puts the value for every token that a scan passes. -/
def replace (m : MacroTable) (text : String) : String :=
  String.ofList ((m.scan text.toList).flatMap Piece.expanded)

end Scanning

section Entries

variable {m : MacroTable} {key value : String} {text : List Char}

theorem isToken_iff :
    isToken key = true ↔ ∃ name, ')' ∉ name ∧ key.toList = '$' :: '(' :: name ++ [')'] := by
  rw [isToken, Option.any_eq_true]
  constructor
  · rintro ⟨name, hb, hn⟩
    refine ⟨name.toList, of_decide_eq_true hn, ?_⟩
    simp [eq_wrapped_of_bare? hb]
  · rintro ⟨name, hn, hk⟩
    have hw : key = "$(" ++ String.ofList name ++ ")" := by simp [← String.toList_inj, hk]
    refine ⟨String.ofList name, hw ▸ bare?_wrapped _, ?_⟩
    simpa using hn

theorem isToken_ofList {name : List Char} (h : ')' ∉ name) :
    isToken (String.ofList ('$' :: '(' :: name ++ [')'])) = true :=
  isToken_iff.2 ⟨name, h, String.toList_ofList⟩

theorem mem_tokens_iff : key ∈ m.tokens ↔ ∃ value, m.values.find? key = some value := by
  simp [tokens, OrderedMap.keys, OrderedMap.mem_toList_iff]

theorem eq_of_isPrefix {other : String} (hk : isToken key = true) (ho : isToken other = true)
    (hp : key.toList <+: text) (hq : other.toList <+: text) : key = other := by
  obtain ⟨a, ha, hka⟩ := isToken_iff.1 hk
  obtain ⟨b, hb, hob⟩ := isToken_iff.1 ho
  obtain ⟨after, rfl⟩ := hp
  obtain ⟨after', h⟩ := hq
  rw [hka, hob] at h
  have h : b ++ ')' :: after' = a ++ ')' :: after := by simpa using h
  have hc := Text.cut?_append ha after
  rw [← h, Text.cut?_append hb] at hc
  obtain rfl : b = a := congrArg Prod.fst (Option.some.inj hc)
  rw [← String.toList_inj, hka, hob]

theorem of_entryAt? (h : m.entryAt? text = some (key, value)) :
    isToken key = true ∧ key.toList <+: text ∧ m.values.find? key = some value := by
  have hp := List.find?_some h
  rw [Bool.and_eq_true, List.isPrefixOf_iff_prefix] at hp
  exact ⟨hp.1, hp.2, (OrderedMap.mem_toList_iff m.values).1 (List.mem_of_find?_eq_some h)⟩

theorem entryAt?_eq_some (hk : isToken key = true) (hp : key.toList <+: text)
    (hv : m.values.find? key = some value) : m.entryAt? text = some (key, value) := by
  cases he : m.entryAt? text with
  | none =>
    have hn := List.find?_eq_none.1 he _ ((OrderedMap.mem_toList_iff m.values).2 hv)
    simp [hk, hp] at hn
  | some entry =>
    obtain ⟨other, value'⟩ := entry
    obtain ⟨ho, hq, hv'⟩ := of_entryAt? he
    obtain rfl := eq_of_isPrefix hk ho hp hq
    rw [Option.some.inj (hv.symm.trans hv')]

theorem entryAt?_eq_none_iff : m.entryAt? text = none ↔
    ∀ key ∈ m.tokens, isToken key = true → ¬ key.toList <+: text := by
  constructor
  · intro h key hm hk hp
    obtain ⟨value, hv⟩ := mem_tokens_iff.1 hm
    rw [entryAt?_eq_some hk hp hv] at h
    cases h
  · intro h
    cases he : m.entryAt? text with
    | none => rfl
    | some entry =>
      obtain ⟨hk, hp, hv⟩ := of_entryAt? he
      exact absurd hp (h entry.1 (mem_tokens_iff.2 ⟨_, hv⟩) hk)

end Entries

section Scans

variable {m : MacroTable} {key value : String} {c : Char} {text rest : List Char}

theorem scan_replaced (hk : isToken key = true) (hv : m.values.find? key = some value)
    (rest : List Char) :
    m.scan (key.toList ++ rest) = .replaced key value :: m.scan rest := by
  have he := entryAt?_eq_some hk (List.prefix_append key.toList rest) hv
  obtain ⟨name, -, hkey⟩ := isToken_iff.1 hk
  obtain ⟨tail, ht⟩ : ∃ tail, key.toList = '$' :: tail := ⟨_, hkey⟩
  rw [ht, List.cons_append] at he ⊢
  rw [scan, he]
  simp [ht]

theorem scan_kept (h : m.entryAt? (c :: rest) = none) :
    m.scan (c :: rest) = .kept c :: m.scan rest := by
  rw [scan, h]

theorem scan_of_not_isInfix (h : ∀ key, isToken key = true → ¬ key.toList <:+: text) :
    m.scan text = text.map .kept := by
  induction text with
  | nil => rw [scan, List.map_nil]
  | cons c rest ih =>
    have he : m.entryAt? (c :: rest) = none :=
      entryAt?_eq_none_iff.2 fun key _ hk hp => h key hk hp.isInfix
    rw [scan_kept he, List.map_cons, ih]
    exact fun key hk hi => h key hk (hi.trans (List.suffix_cons c rest).isInfix)

theorem flatMap_expanded_scan (h : ∀ key, isToken key = true → ¬ key.toList <:+: text) :
    (m.scan text).flatMap Piece.expanded = text := by
  rw [scan_of_not_isInfix h, List.flatMap_map]
  exact List.flatMap_singleton' text

theorem flatMap_written_scan (m : MacroTable) (text : List Char) :
    (m.scan text).flatMap Piece.written = text := by
  fun_induction m.scan text with
  | case1 => rfl
  | case2 c rest key value he ih =>
    obtain ⟨hk, ⟨after, hp⟩, -⟩ := of_entryAt? he
    obtain ⟨name, -, hkey⟩ := isToken_iff.1 hk
    obtain ⟨tail, ht⟩ : ∃ tail, key.toList = '$' :: tail := ⟨_, hkey⟩
    rw [List.flatMap_cons, ih, Piece.written, ← hp]
    rw [ht, List.cons_append, List.cons.injEq] at hp
    rw [← hp.2, ht]
    simp
  | case3 c rest he ih => rw [List.flatMap_cons, ih, Piece.written, List.singleton_append]

/-- Expansion puts the value for every token that the scan passes. -/
theorem expandFrom_eq_flatMap (m : MacroTable) (text : List Char) :
    m.expandFrom text = (m.scan text).flatMap Piece.expanded := by
  fun_induction m.expandFrom text with
  | case1 => rw [scan, List.flatMap_nil]
  | case2 rest hc =>
    have hn : ')' ∉ '$' :: '(' :: rest := by simpa using Text.cut?_eq_none_iff.1 hc
    refine (flatMap_expanded_scan fun key hk hi => ?_).symm
    obtain ⟨name, -, hkey⟩ := isToken_iff.1 hk
    exact hn (hi.subset (by simp [hkey]))
  | case3 rest name after hc _ value hv ih =>
    obtain ⟨rfl, hn⟩ := Text.eq_of_cut? hc
    have ht := scan_replaced (isToken_ofList hn) hv after
    rw [String.toList_ofList, List.append_assoc] at ht
    rw [← List.singleton_append (l := after), ← List.cons_append, ← List.cons_append, ht,
      List.flatMap_cons, ih, Piece.expanded]
  | case4 rest name after hc _ hv ih =>
    obtain ⟨rfl, hn⟩ := Text.eq_of_cut? hc
    have hp : (String.ofList ('$' :: '(' :: name ++ [')'])).toList <+:
        '$' :: '(' :: (name ++ ')' :: after) := ⟨after, by simp⟩
    have he : m.entryAt? ('$' :: '(' :: (name ++ ')' :: after)) = none := by
      refine entryAt?_eq_none_iff.2 fun key hm hk hq => ?_
      obtain rfl := eq_of_isPrefix hk (isToken_ofList hn) hq hp
      exact (OrderedMap.find?_eq_none_iff m.values _).1 hv hm
    rw [scan_kept he, List.flatMap_cons, ih, Piece.expanded, List.singleton_append]
  | case5 c rest hcopy ih =>
    have he : m.entryAt? (c :: rest) = none := by
      refine entryAt?_eq_none_iff.2 fun key _ hk hp => ?_
      obtain ⟨name, -, hkey⟩ := isToken_iff.1 hk
      obtain ⟨after, h⟩ := hp
      rw [hkey] at h
      simp only [List.cons_append, List.cons.injEq] at h
      exact hcopy _ h.1.symm h.2.symm
    rw [scan_kept he, List.flatMap_cons, ih, Piece.expanded, List.singleton_append]

/-- Expanding a text is replacing its tokens from the left, and so is expanding it in place. -/
theorem expand_eq_replace (m : MacroTable) (s : String) :
    m.expand s = m.replace s ∧ m.expandInPlace s = m.replace s := by
  have h : m.expand s = m.replace s := by rw [expand, expandFrom_eq_flatMap, replace]
  refine ⟨h, ?_⟩
  unfold expandInPlace
  split
  · exact h
  · next hn =>
    rw [replace, flatMap_expanded_scan, String.ofList_toList]
    intro key hk hi
    obtain ⟨name, -, hkey⟩ := isToken_iff.1 hk
    have ho : ['$', '('] <:+: key.toList := ⟨[], name ++ [')'], by simp [hkey]⟩
    exact hn (Text.contains_iff.2 (ho.trans hi))

end Scans

end StudioMake.MacroTable
