import StudioMake.Text.Search
import StudioMake.Text.Split
import StudioMake.Xml.Reference

/-!
# Markup

A document as the sequence of its tags, stretches of character data and asides (comments and
processing instructions). Whether tags match is not looked at here.
-/

set_option autoImplicit false

namespace StudioMake.Xml

structure QName where
  qualifier : String
  name : String
deriving DecidableEq

inductive Markup where
  /-- A start tag; `closed` if it ends its element too. -/
  | opening (name : QName) (attributes : List (QName × String)) (closed : Bool)
  | closing (name : QName)
  | text (content : List Char)
  | data (content : List Char)
  | aside

def skipSpaces (l : List Char) : List Char := l.dropWhile isSpace

theorem length_skipSpaces_le (l : List Char) : (skipSpaces l).length ≤ l.length :=
  (List.dropWhile_sublist isSpace).length_le

def after? (pattern : String) (l : List Char) : Option (List Char) :=
  if pattern.toList.isPrefixOf l then some (l.drop pattern.length) else none

theorem length_of_after? {pattern : String} {l rest : List Char}
    (h : after? pattern l = some rest) :
    rest.length ≤ l.length := by
  unfold after? at h
  split at h <;> cases h
  simp

def startsName (l : List Char) : Bool := l.head?.any isNameStart

def isQNameChar (c : Char) : Bool := c == ':' || isNameChar c

def QName.ofChars? (name : List Char) : Option QName :=
  match Text.pieces (· == ':') name with
  | [name] => if startsName name then some ⟨"", String.ofList name⟩ else none
  | [qualifier, name] =>
    if (qualifier.isEmpty || startsName qualifier) && startsName name then
      some ⟨String.ofList qualifier, String.ofList name⟩
    else none
  | _ => none

def qname? (l : List Char) : Option (QName × List Char) :=
  (QName.ofChars? (l.takeWhile isQNameChar)).map fun name => (name, l.dropWhile isQNameChar)

theorem length_of_qname? {l rest : List Char} {name : QName} (h : qname? l = some (name, rest)) :
    rest.length ≤ l.length := by
  obtain ⟨_, _, he⟩ := Option.map_eq_some_iff.1 h
  cases he
  exact (List.dropWhile_sublist _).length_le

def rawValue? : List Char → Option (List Char × List Char)
  | '"' :: l => (Text.cut? '"' l).filter fun (value, _) => !value.contains '<'
  | '\'' :: l => (Text.cut? '\'' l).filter fun (value, _) => !value.contains '<'
  | _ => none

theorem length_of_rawValue? {l value rest : List Char} (h : rawValue? l = some (value, rest)) :
    rest.length < l.length := by
  unfold rawValue? at h
  split at h
  · have := Text.length_of_cut? (Option.filter_eq_some_iff.1 h).1
    simp only [List.length_cons]
    omega
  · have := Text.length_of_cut? (Option.filter_eq_some_iff.1 h).1
    simp only [List.length_cons]
    omega
  · cases h

def rawAttribute? (l : List Char) : Option (QName × List Char × List Char) := do
  let (name, l) ← qname? l
  let l ← after? "=" (skipSpaces l)
  let (value, rest) ← rawValue? (skipSpaces l)
  return (name, value, rest)

theorem length_of_rawAttribute? {l value rest : List Char} {name : QName}
    (h : rawAttribute? l = some (name, value, rest)) : rest.length < l.length := by
  obtain ⟨⟨_, l₁⟩, h₁, h⟩ := Option.bind_eq_some_iff.1 h
  obtain ⟨l₂, h₂, h⟩ := Option.bind_eq_some_iff.1 h
  obtain ⟨⟨_, l₃⟩, h₃, h⟩ := Option.bind_eq_some_iff.1 h
  cases h
  have := length_of_qname? h₁
  have := length_of_after? h₂
  have := length_of_rawValue? h₃
  have := length_skipSpaces_le l₁
  have := length_skipSpaces_le l₂
  omega

def attribute? (l : List Char) : Option ((QName × String) × List Char) := do
  let (name, raw, rest) ← rawAttribute? l
  let symbols ← symbols? raw
  return ((name, String.ofList (attributeValue symbols)), rest)

theorem length_of_attribute? {l rest : List Char} {item : QName × String}
    (h : attribute? l = some (item, rest)) : rest.length < l.length := by
  obtain ⟨⟨_, _, _⟩, h₁, h⟩ := Option.bind_eq_some_iff.1 h
  obtain ⟨_, _, h⟩ := Option.bind_eq_some_iff.1 h
  cases h
  exact length_of_rawAttribute? h₁

def attributes? (l : List Char) : Option ((List (QName × String) × Bool) × List Char) :=
  match hn : skipSpaces l with
  | '/' :: '>' :: rest => some (([], true), rest)
  | '>' :: rest => some (([], false), rest)
  | next =>
    if l.head?.any isSpace then
      match h : attribute? next with
      | none => none
      | some (item, rest) =>
        have : rest.length < l.length := by
          have := length_of_attribute? h
          have := length_skipSpaces_le l
          rw [hn] at this
          omega
        (attributes? rest).map fun ((more, closed), rest) => ((item :: more, closed), rest)
    else none
termination_by l.length

theorem length_of_attributes? {l rest : List Char} {found : List (QName × String) × Bool}
    (h : attributes? l = some (found, rest)) : rest.length ≤ l.length := by
  fun_induction attributes? l generalizing found with
  | case1 l rest' hn =>
    cases h
    have := length_skipSpaces_le l
    rw [hn] at this
    simp only [List.length_cons] at this
    omega
  | case2 l rest' hn =>
    cases h
    have := length_skipSpaces_le l
    rw [hn] at this
    simp only [List.length_cons] at this
    omega
  | case3 => cases h
  | case4 l _ _ rest' _ _ _ hlt ih =>
    obtain ⟨⟨⟨more, closed⟩, rest''⟩, hr, he⟩ := Option.map_eq_some_iff.1 h
    cases he
    have := ih hr
    omega
  | case5 => cases h

def opening? (l : List Char) : Option (Markup × List Char) := do
  let (name, l) ← qname? l
  let ((attributes, closed), rest) ← attributes? l
  return (.opening name attributes closed, rest)

def closing? (l : List Char) : Option (Markup × List Char) := do
  let (name, l) ← qname? l
  let rest ← after? ">" (skipSpaces l)
  return (.closing name, rest)

/-- A comment after `<!--`: two hyphens occur in it only as its end. -/
def comment? (l : List Char) : Option (Markup × List Char) := do
  let (content, rest) ← Text.around? "-->".toList l
  if (Text.around? "--".toList content).isSome || content.getLast? == some '-' then none
  else return (.aside, rest)

/-- A processing instruction after `<?`; the target `xml` is left to the declaration. -/
def instruction? (l : List Char) : Option (Markup × List Char) := do
  if (after? "xml " l).isSome then none
  else if l.head?.any fun c => c == ':' || isNameStart c then
    let (_, rest) ← Text.around? "?>".toList (l.dropWhile isQNameChar)
    return (.aside, rest)
  else none

def data? (l : List Char) : Option (Markup × List Char) := do
  let (content, rest) ← Text.around? "]]>".toList l
  return (.data content, rest)

def declaration? (l : List Char) : Option (Markup × List Char) :=
  match after? "--" l, after? "[CDATA[" l with
  | some rest, _ => comment? rest
  | none, some rest => data? rest
  | none, none => none

def tag? : List Char → Option (Markup × List Char)
  | '/' :: rest => closing? rest
  | '?' :: rest => instruction? rest
  | '!' :: rest => declaration? rest
  | rest => opening? rest

/-- Character data up to the next `<`, of which `l` does not start with one. -/
def text? (l : List Char) : Option (Markup × List Char) :=
  let content := l.takeWhile (· != '<')
  if (Text.around? "]]>".toList content).isSome then none
  else some (.text content, l.dropWhile (· != '<'))

def Markup.next? : List Char → Option (Markup × List Char)
  | '<' :: rest => tag? rest
  | rest => text? rest

theorem length_of_opening? {l rest : List Char} {m : Markup} (h : opening? l = some (m, rest)) :
    rest.length ≤ l.length := by
  obtain ⟨⟨_, l₁⟩, h₁, h⟩ := Option.bind_eq_some_iff.1 h
  obtain ⟨⟨⟨_, _⟩, _⟩, h₂, h⟩ := Option.bind_eq_some_iff.1 h
  cases h
  exact Nat.le_trans (length_of_attributes? h₂) (length_of_qname? h₁)

theorem length_of_closing? {l rest : List Char} {m : Markup} (h : closing? l = some (m, rest)) :
    rest.length ≤ l.length := by
  obtain ⟨⟨_, l₁⟩, h₁, h⟩ := Option.bind_eq_some_iff.1 h
  obtain ⟨_, h₂, h⟩ := Option.bind_eq_some_iff.1 h
  cases h
  have := length_of_qname? h₁
  have := length_of_after? h₂
  have := length_skipSpaces_le l₁
  omega

theorem length_of_comment? {l rest : List Char} {m : Markup} (h : comment? l = some (m, rest)) :
    rest.length ≤ l.length := by
  obtain ⟨⟨_, _⟩, h₁, h⟩ := Option.bind_eq_some_iff.1 h
  dsimp only at h
  split at h <;> cases h
  exact Text.length_of_around? h₁

theorem length_of_instruction? {l rest : List Char} {m : Markup}
    (h : instruction? l = some (m, rest)) : rest.length ≤ l.length := by
  unfold instruction? at h
  split at h
  · cases h
  · split at h
    · obtain ⟨⟨_, _⟩, h₁, h⟩ := Option.bind_eq_some_iff.1 h
      cases h
      exact Nat.le_trans (Text.length_of_around? h₁) (List.dropWhile_sublist _).length_le
    · cases h

theorem length_of_data? {l rest : List Char} {m : Markup} (h : data? l = some (m, rest)) :
    rest.length ≤ l.length := by
  obtain ⟨⟨_, _⟩, h₁, h⟩ := Option.bind_eq_some_iff.1 h
  cases h
  exact Text.length_of_around? h₁

theorem length_of_declaration? {l rest : List Char} {m : Markup}
    (h : declaration? l = some (m, rest)) : rest.length ≤ l.length := by
  unfold declaration? at h
  split at h
  · next h₁ => exact Nat.le_trans (length_of_comment? h) (length_of_after? h₁)
  · next h₁ => exact Nat.le_trans (length_of_data? h) (length_of_after? h₁)
  · cases h

theorem length_of_tag? {l rest : List Char} {m : Markup} (h : tag? l = some (m, rest)) :
    rest.length ≤ l.length := by
  unfold tag? at h
  split at h
  · exact Nat.le_succ_of_le (length_of_closing? h)
  · exact Nat.le_succ_of_le (length_of_instruction? h)
  · exact Nat.le_succ_of_le (length_of_declaration? h)
  · exact length_of_opening? h

theorem Markup.length_of_next? {c : Char} {l rest : List Char} {m : Markup}
    (h : Markup.next? (c :: l) = some (m, rest)) : rest.length < (c :: l).length := by
  unfold Markup.next? at h
  split at h
  · next he =>
    cases he
    exact Nat.lt_succ_of_le (length_of_tag? h)
  · next hc =>
    unfold text? at h
    dsimp only at h
    split at h
    · cases h
    · cases h
      have hne : (c != '<') = true := by
        rw [bne_iff_ne]
        rintro rfl
        exact hc _ rfl
      rw [List.dropWhile_cons, if_pos hne]
      exact Nat.lt_succ_of_le (List.dropWhile_sublist _).length_le

def Markup.all? : List Char → Option (List Markup)
  | [] => some []
  | c :: l =>
    match _h : Markup.next? (c :: l) with
    | none => none
    | some (markup, rest) =>
      (Markup.all? rest).map (markup :: ·)
termination_by l => l.length
decreasing_by exact Markup.length_of_next? _h

def pseudoAttribute? (name : String) (l : List Char) : Option (List Char) :=
  if (after? name l).isSome then do
    let (_, _, rest) ← rawAttribute? l
    if rest.head?.all fun c => isSpace c || c == '?' then some (skipSpaces rest) else none
  else some l

/-- What follows the declaration of a document, if it starts with one. The version must be given;
the encoding and the standalone mark need not. -/
def afterDeclaration? (l : List Char) : Option (List Char) :=
  match after? "<?xml " l with
  | none => some l
  | some rest => do
    let content := skipSpaces rest
    guard (after? "version" content).isSome
    let rest ← pseudoAttribute? "version" content
    let rest ← pseudoAttribute? "encoding" rest
    let rest ←
      if (after? "standalone" rest).isSome then (rawAttribute? rest).map (·.2.2) else some rest
    after? "?>" (skipSpaces rest)

end StudioMake.Xml
