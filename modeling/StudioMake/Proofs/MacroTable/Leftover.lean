import StudioMake.MacroTable.Vocabulary
import StudioMake.Proofs.MacroTable.Replacement

/-!
# Tokens that an expansion leaves

A table whose values hold no `$`, `(` or `)` puts no part of a token's frame into a text. Still a
token can come out of an expansion: the frame of a token stays where it encloses other tokens, and
their values can complete the name in it. `tokens_left_iff` says that this is the only way.
-/

set_option autoImplicit false

namespace StudioMake.MacroTable

section Seams

variable {m : MacroTable} {text a b : List Char} {p : Piece} {before run after : List Piece}

/-- A scan passes a piece at the beginning of a text. -/
def Passes (m : MacroTable) (p : Piece) (text : List Char) : Prop :=
  match p with
  | .kept _ => m.entryAt? text = none
  | .replaced token value => m.entryAt? text = some (token, value)

theorem scan_eq_cons_iff : m.scan text = p :: after ↔
    ∃ rest, text = p.written ++ rest ∧ m.scan rest = after ∧ m.Passes p text := by
  constructor
  · intro h
    have hw := flatMap_written_scan m text
    rw [h, List.flatMap_cons] at hw
    cases text with
    | nil =>
      rw [scan] at h
      cases h
    | cons c rest =>
      rw [scan] at h
      split at h
      · next token value he =>
        cases h
        exact ⟨_, hw.symm, by rw [flatMap_written_scan], he⟩
      · next he =>
        cases h
        exact ⟨_, hw.symm, by rw [flatMap_written_scan], he⟩
  · rintro ⟨rest, rfl, rfl, hp⟩
    cases p with
    | kept c => exact scan_kept hp
    | replaced token value =>
      obtain ⟨hk, -, hv⟩ := of_entryAt? hp
      exact scan_replaced hk hv rest

theorem Passes.of_append (h : m.Passes p (a ++ b)) (hp : p.written <+: a) : m.Passes p a := by
  cases p with
  | kept c =>
    exact entryAt?_eq_none_iff.2 fun key hm hk hq =>
      entryAt?_eq_none_iff.1 h key hm hk (hq.trans (List.prefix_append a b))
  | replaced token value =>
    obtain ⟨hk, -, hv⟩ := of_entryAt? h
    exact entryAt?_eq_some hk hp hv

theorem scan_prefix (h : m.scan text = before ++ after) :
    m.scan (before.flatMap Piece.written) = before := by
  induction before generalizing text with
  | nil => rw [List.flatMap_nil, scan]
  | cons p before ih =>
    rw [List.cons_append] at h
    obtain ⟨rest, ht, hs, hp⟩ := scan_eq_cons_iff.1 h
    refine scan_eq_cons_iff.2 ⟨_, List.flatMap_cons, ih hs, ?_⟩
    have hr := flatMap_written_scan m rest
    rw [hs, List.flatMap_append] at hr
    rw [ht, ← hr, ← List.append_assoc] at hp
    exact hp.of_append (List.prefix_append _ _)

theorem scan_suffix (h : m.scan text = before ++ after) :
    m.scan (after.flatMap Piece.written) = after := by
  induction before generalizing text with
  | nil =>
    rw [List.nil_append] at h
    rw [← h, flatMap_written_scan]
  | cons p before ih =>
    rw [List.cons_append] at h
    obtain ⟨rest, -, hs, -⟩ := scan_eq_cons_iff.1 h
    exact ih hs

theorem scan_run (h : m.scan text = before ++ run ++ after) :
    m.scan (run.flatMap Piece.written) = run := by
  rw [List.append_assoc] at h
  exact scan_prefix (scan_suffix h)

end Seams

section Values

/-- A value that holds no part of a token's frame. -/
def IsInert (value : String) : Prop := ∀ c ∈ value.toList, c ∉ ['$', '(', ')']

instance : DecidablePred IsInert := fun value =>
  decidable_of_iff (value.toList.all (· ∉ ['$', '(', ')']) = true)
    ⟨fun h => by simpa [IsInert] using h, fun h => by simpa [IsInert] using h⟩

/-- The tables that come out of the ones in which projects are first read, if macros are set to
inert values. -/
inductive Filled : MacroTable → Prop
  | vcproj : Filled vcproj
  | msbuild : Filled msbuild
  | set {m : MacroTable} (name : String) {value : String} (filled : Filled m)
      (inert : IsInert value) : Filled (m.set name value)

theorem mem_or_of_find?_insertAll {m : OrderedMap String} {l : List (String × String)}
    {key value : String} (h : (m.insertAll l).find? key = some value) :
    (key, value) ∈ l ∨ m.find? key = some value := by
  induction l generalizing m with
  | nil => exact .inr h
  | cons entry l ih =>
    rcases ih h with hm | hv
    · exact .inl (List.mem_cons_of_mem entry hm)
    · rw [OrderedMap.find?_insert] at hv
      split at hv
      · next hk =>
        cases hv
        exact .inl (hk ▸ List.mem_cons_self)
      · exact .inr hv

theorem of_find?_ofVocabulary {names : List String} {key value : String}
    (h : (ofVocabulary (names.map token)).values.find? key = some value) :
    (∃ name, key = token name) ∧ IsInert value := by
  rcases mem_or_of_find?_insertAll h with hm | hv
  · obtain ⟨_, ht, he⟩ := List.mem_map.1 hm
    obtain ⟨name, -, rfl⟩ := List.mem_map.1 ht
    cases he
    exact ⟨⟨name, rfl⟩, by decide⟩
  · cases hv

variable {m : MacroTable} {key value : String}

theorem Filled.entry (h : m.Filled) (hv : m.values.find? key = some value) :
    (∃ name, key = token name) ∧ IsInert value := by
  induction h with
  | vcproj => exact of_find?_ofVocabulary hv
  | msbuild => exact of_find?_ofVocabulary hv
  | set name filled inert ih =>
    rw [MacroTable.set, OrderedMap.find?_insert] at hv
    split at hv
    · next hk =>
      cases hv
      exact ⟨⟨name, hk⟩, inert⟩
    · exact ih hv

theorem Filled.exists_frame (h : m.Filled) (hm : key ∈ m.tokens) :
    ∃ name, key.toList = '$' :: '(' :: name ++ [')'] := by
  obtain ⟨value, hv⟩ := mem_tokens_iff.1 hm
  obtain ⟨⟨name, rfl⟩, -⟩ := h.entry hv
  refine ⟨(nameOf name).toList, ?_⟩
  rw [eq_wrapped_of_bare? (bare?_token name)]
  simp

end Values

section Runs

variable {m : MacroTable} {text : List Char} {ps : List Piece}

theorem of_mem_scan {token value : String} (h : .replaced token value ∈ m.scan text) :
    isToken token = true ∧ m.values.find? token = some value := by
  fun_induction m.scan text with
  | case1 => cases h
  | case2 c rest token' value' he ih =>
    rcases List.mem_cons.1 h with h | h
    · cases h
      obtain ⟨hk, -, hv⟩ := of_entryAt? he
      exact ⟨hk, hv⟩
    · exact ih h
  | case3 c rest he ih =>
    rcases List.mem_cons.1 h with h | h
    · cases h
    · exact ih h

theorem exists_kept {c : Char} (hc : ∀ token value, .replaced token value ∈ ps → c ∉ value.toList)
    {x y : List Char} (h : ps.flatMap Piece.expanded = x ++ c :: y) :
    ∃ before after, ps = before ++ .kept c :: after ∧
      before.flatMap Piece.expanded = x ∧ after.flatMap Piece.expanded = y := by
  induction ps generalizing x with
  | nil => simp at h
  | cons p ps ih =>
    have hps := fun token value hm => hc token value (List.mem_cons_of_mem p hm)
    have hpass : ∀ x', x = p.expanded ++ x' → ps.flatMap Piece.expanded = x' ++ c :: y →
        ∃ before after, p :: ps = before ++ .kept c :: after ∧
          before.flatMap Piece.expanded = x ∧ after.flatMap Piece.expanded = y := by
      rintro x' rfl hx
      obtain ⟨before, after, rfl, rfl, rfl⟩ := ih hps hx
      exact ⟨p :: before, after, rfl, rfl, rfl⟩
    rw [List.flatMap_cons] at h
    rcases List.append_eq_append_iff.1 h with ⟨x', hx, hrest⟩ | ⟨v, hv, hrest⟩
    · exact hpass x' hx hrest
    · cases v with
      | nil => exact hpass [] (by simpa using hv.symm) hrest.symm
      | cons c' v =>
        obtain ⟨rfl, rfl⟩ := List.cons.inj hrest
        cases p with
        | kept d =>
          obtain ⟨rfl, he⟩ | ⟨x', -, he⟩ := List.cons_eq_append_iff.1 hv
          · cases he
            exact ⟨[], ps, rfl, rfl, rfl⟩
          · simp at he
        | replaced token value =>
          have hm : c ∈ value.toList := by
            have hv : value.toList = x ++ c :: v := hv
            simp [hv]
          exact absurd hm (hc token value List.mem_cons_self)

theorem eq_map_kept_or (ps : List Piece) : (∃ gap : List Char, ps = gap.map .kept) ∨
    ∃ (gap : List Char) (token value : String) (rest : List Piece),
      ps = gap.map .kept ++ .replaced token value :: rest := by
  induction ps with
  | nil => exact .inl ⟨[], rfl⟩
  | cons p ps ih =>
    cases p with
    | kept c =>
      rcases ih with ⟨gap, rfl⟩ | ⟨gap, token, value, rest, rfl⟩
      · exact .inl ⟨c :: gap, rfl⟩
      · exact .inr ⟨c :: gap, token, value, rest, rfl⟩
    | replaced token value => exact .inr ⟨[], token, value, ps, rfl⟩

theorem flatMap_written_kept (l : List Char) : (l.map Piece.kept).flatMap Piece.written = l := by
  rw [List.flatMap_map]
  exact List.flatMap_singleton' l

theorem flatMap_expanded_kept (l : List Char) : (l.map Piece.kept).flatMap Piece.expanded = l := by
  rw [List.flatMap_map]
  exact List.flatMap_singleton' l

theorem Filled.exists_run (h : m.Filled) {token : String} (ht : token ∈ m.tokens)
    (hi : token.toList <:+: m.expandFrom text) :
    ∃ before inner after,
      m.scan text = before ++ (.kept '$' :: inner ++ [.kept ')']) ++ after ∧
        '$' :: inner.flatMap Piece.expanded ++ [')'] = token.toList := by
  have hinert : ∀ {c : Char}, c ∈ ['$', '(', ')'] → ∀ token value,
      .replaced token value ∈ m.scan text → c ∉ value.toList := by
    intro c hc token value hm hv
    exact (h.entry (of_mem_scan hm).2).2 c hv hc
  obtain ⟨name, hname⟩ := h.exists_frame ht
  obtain ⟨x, y, hxy⟩ := hi
  rw [expandFrom_eq_flatMap, hname] at hxy
  obtain ⟨before, rest, hs, -, hrest⟩ := exists_kept (hinert (c := '$') (by decide))
    (x := x) (y := '(' :: name ++ ')' :: y) (by simp [← hxy])
  have hr := fun token value hm => hinert (c := ')') (by decide) token value
    (hs ▸ List.mem_append_right before (List.mem_cons_of_mem (Piece.kept '$') hm))
  obtain ⟨inner, after, rfl, hinner, -⟩ := exists_kept hr hrest
  refine ⟨before, inner, after, by simp [hs], ?_⟩
  rw [hinner, hname]

/-- A token of the table stands behind a `$` with no `)` between. -/
def Nests (m : MacroTable) (text : String) : Prop :=
  ∃ key ∈ m.tokens, isToken key = true ∧ ∃ gap : List Char, ')' ∉ gap ∧
    '$' :: (gap ++ key.toList) <:+: text.toList

theorem Nests.mono {part whole : String} (h : m.Nests part)
    (hp : part.toList <:+: whole.toList) : m.Nests whole := by
  obtain ⟨key, hm, hk, gap, hg, hi⟩ := h
  exact ⟨key, hm, hk, gap, hg, hi.trans hp⟩

/-- A text that the scan turns into a token of the table has another token in it. -/
theorem nests_of_scan {inner : List Piece} {token : String} (ht : token ∈ m.tokens)
    (hk : isToken token = true) (hs : m.scan text = .kept '$' :: inner ++ [.kept ')'])
    (hw : '$' :: inner.flatMap Piece.expanded ++ [')'] = token.toList) :
    m.Nests (String.ofList text) := by
  have htext := flatMap_written_scan m text
  rw [hs] at htext
  rcases eq_map_kept_or inner with ⟨gap, rfl⟩ | ⟨gap, key, value, rest, rfl⟩
  · obtain ⟨value, hv⟩ := mem_tokens_iff.1 ht
    have hself : text = token.toList := by
      rw [← htext, ← hw]
      simp [flatMap_written_kept, flatMap_expanded_kept, Piece.written]
    have hr := scan_replaced hk hv []
    rw [List.append_nil, ← hself, hs] at hr
    cases hr
  · have hm : .replaced key value ∈ m.scan text := by simp [hs]
    obtain ⟨hkey, hv⟩ := of_mem_scan hm
    obtain ⟨name, hn, hname⟩ := isToken_iff.1 hk
    refine ⟨key, mem_tokens_iff.2 ⟨value, hv⟩, hkey, gap, fun hg => ?_, ?_⟩
    · have hframe : gap ++ (value.toList ++ rest.flatMap Piece.expanded) = '(' :: name := by
        rw [hname] at hw
        simpa [flatMap_expanded_kept, Piece.expanded] using List.append_cancel_right hw
      have hmem : ')' ∈ '(' :: name := hframe ▸ List.mem_append_left _ hg
      exact hn (by simpa using hmem)
    · rw [String.toList_ofList, ← htext]
      exact ⟨[], rest.flatMap Piece.written ++ [')'], by
        simp [flatMap_written_kept, Piece.written]⟩

end Runs

section Leftover

variable {m : MacroTable} {token : String}

def textOf (ps : List Piece) : String := String.ofList (ps.flatMap Piece.written)

theorem expand_textOf {ps : List Piece} (h : m.scan (ps.flatMap Piece.written) = ps) :
    m.expand (textOf ps) = String.ofList (ps.flatMap Piece.expanded) := by
  rw [expand, textOf, String.toList_ofList, expandFrom_eq_flatMap, h]

theorem expand_seams {text : String} {before run after : List Piece}
    (h : m.scan text.toList = before ++ run ++ after) :
    text = textOf before ++ textOf run ++ textOf after ∧
      m.expand text = m.expand (textOf before) ++ m.expand (textOf run) ++
        m.expand (textOf after) := by
  have hbefore := scan_prefix ((List.append_assoc before run after) ▸ h)
  have htext := flatMap_written_scan m text.toList
  rw [h] at htext
  constructor
  · rw [← String.toList_inj, ← htext]
    simp [textOf]
  · rw [expand_textOf hbefore, expand_textOf (scan_run h), expand_textOf (scan_suffix h), expand,
      expandFrom_eq_flatMap, h]
    simp [← String.toList_inj]

theorem Filled.exists_spelling (h : m.Filled) (ht : token ∈ m.tokens) {text : String}
    (hc : Text.contains token (m.expand text) = true) :
    ∃ before spelling after, text = before ++ spelling ++ after ∧
      m.expand text = m.expand before ++ token ++ m.expand after ∧
      m.expand spelling = token ∧ (isToken token = true → m.Nests spelling) := by
  rw [Text.contains_iff, expand, String.toList_ofList] at hc
  obtain ⟨before, inner, after, hs, hw⟩ := h.exists_run ht hc
  have hrun := scan_run hs
  obtain ⟨htext, hexpand⟩ := expand_seams hs
  have htoken : m.expand (textOf (.kept '$' :: inner ++ [.kept ')'])) = token := by
    rw [expand_textOf hrun, ← String.toList_inj, ← hw]
    simp [Piece.expanded]
  rw [htoken] at hexpand
  exact ⟨_, _, _, htext, hexpand, htoken, fun hk => nests_of_scan ht hk hrun hw⟩

/-- A token is left by an expansion exactly if the expansion makes it out of a part of the text;
and the part holds another token if the token is one that a text can be searched for. So texts that
do not nest tokens have none of these left. -/
theorem tokens_left_iff (h : m.Filled) (ht : token ∈ m.tokens) (text : String) :
    (Text.contains token (m.expand text) = true ↔
      ∃ before spelling after, text = before ++ spelling ++ after ∧
        m.expand text = m.expand before ++ token ++ m.expand after ∧
        m.expand spelling = token ∧ (isToken token = true → m.Nests spelling)) ∧
    (isToken token = true → ¬ m.Nests text → Text.contains token (m.expand text) = false) := by
  refine ⟨⟨h.exists_spelling ht, ?_⟩, ?_⟩
  · rintro ⟨before, -, after, -, he, -⟩
    rw [Text.contains_iff, he]
    exact ⟨(m.expand before).toList, (m.expand after).toList, by simp⟩
  · intro hk hn
    rw [Bool.eq_false_iff]
    intro hc
    obtain ⟨before, spelling, after, rfl, -, -, hnests⟩ := h.exists_spelling ht hc
    exact hn ((hnests hk).mono ⟨before.toList, after.toList, by simp⟩)

theorem tokens_left_iff_completed :
    let m := vcproj.set "IntDir" "Out"
    m.Filled ∧ "$(OutDir)" ∈ m.tokens ∧
    (∃ before spelling after, "a$($(IntDir)Dir)" = before ++ spelling ++ after ∧
      m.expand "a$($(IntDir)Dir)" = m.expand before ++ "$(OutDir)" ++ m.expand after ∧
      m.expand spelling = "$(OutDir)" ∧ m.Nests spelling) ∧
    ¬ m.Nests "bin/$(OutDir)" ∧
    Text.contains "$(OutDir)" (m.expand "bin/$(OutDir)") = false := by
  intro m
  have hf : m.Filled := .set "IntDir" .vcproj (by decide)
  obtain ⟨ht, hc⟩ : "$(OutDir)" ∈ m.tokens ∧
      Text.contains "$(OutDir)" (m.expand "a$($(IntDir)Dir)") = true := by decide +kernel
  have hk : isToken "$(OutDir)" = true := by decide
  have hflat : ¬ m.Nests "bin/$(OutDir)" := by
    rintro ⟨key, -, hkey, gap, -, hi⟩
    obtain ⟨name, -, hname⟩ := isToken_iff.1 hkey
    have hcount := hi.sublist.count_le '$'
    have hone : "bin/$(OutDir)".toList.count '$' = 1 := by decide
    rw [hone, hname] at hcount
    simp at hcount
  obtain ⟨before, spelling, after, htext, he, hs, hn⟩ :=
    (tokens_left_iff hf ht "a$($(IntDir)Dir)").1.1 hc
  exact ⟨hf, ht, ⟨before, spelling, after, htext, he, hs, hn hk⟩, hflat,
    (tokens_left_iff hf ht "bin/$(OutDir)").2 hk hflat⟩

/-- A token is left where empty values complete it, and where its own name ends it too early. -/
theorem tokens_left_by_values_and_names :
    vcproj.expand "$$(OutDir)(OutDir)" = "$(OutDir)" ∧
    (vcproj.set "x)y" "").expand "$(x)y)" = "$(x)y)" ∧
    ¬ ∀ (m : MacroTable) (token text : String), m.Filled → token ∈ m.tokens →
      Text.contains token (m.expand text) = false := by
  obtain ⟨ht, hvalues, hname⟩ : "$(OutDir)" ∈ vcproj.tokens ∧
      vcproj.expand "$$(OutDir)(OutDir)" = "$(OutDir)" ∧
      (vcproj.set "x)y" "").expand "$(x)y)" = "$(x)y)" := by
    decide +kernel
  refine ⟨hvalues, hname, fun h => ?_⟩
  have hc := h vcproj "$(OutDir)" "$$(OutDir)(OutDir)" .vcproj ht
  rw [hvalues] at hc
  revert hc
  decide

end Leftover

end StudioMake.MacroTable
