import StudioMake.MSBuild.Metadata
import StudioMake.Proofs.Text.Entries
import StudioMake.Text.Search

/-!
# References in settings

A text without `%(` stays as it is, and a reference after a semicolon gives the entries of the
value it stands for, behind those of the text before it.
-/

set_option autoImplicit false

namespace StudioMake.MSBuild

open Text

variable {current : Settings}

def opening : List Char := ['%', '(']

theorem expandMetadataFrom_reference {name : List Char} (h : ')' ∉ name) (after : List Char) :
    expandMetadataFrom current ('%' :: '(' :: (name ++ ')' :: after)) =
      ((current.find? (String.ofList name)).getD "").toList ++
        expandMetadataFrom current after := by
  rw [expandMetadataFrom]
  split
  · next hc =>
    rw [cut?_append h] at hc
    cases hc
  · next hc =>
    rw [cut?_append h] at hc
    cases hc
    rfl

theorem expandMetadataFrom_copy {c : Char} {rest : List Char}
    (h : ¬ opening <+: c :: rest) :
    expandMetadataFrom current (c :: rest) = c :: expandMetadataFrom current rest := by
  rw [expandMetadataFrom]
  rintro after rfl rfl
  exact h ⟨after, rfl⟩

theorem expandMetadataFrom_append_cons {a : List Char} (h : ¬ opening <:+: a) (rest : List Char) :
    expandMetadataFrom current (a ++ ';' :: rest) =
      a ++ ';' :: expandMetadataFrom current rest := by
  induction a with
  | nil =>
    apply expandMetadataFrom_copy
    intro hp
    exact absurd (List.cons_prefix_cons.1 hp).1 (by decide)
  | cons c a ih =>
    rw [List.cons_append, expandMetadataFrom_copy, ih]
    · rfl
    · exact fun hi => h (hi.trans (List.suffix_cons c a).isInfix)
    · exact fun hp => h (prefix_of_append_cons (a := c :: a) (by decide) hp).isInfix

theorem expandMetadataFrom_eq_self {l : List Char} (h : ¬ opening <:+: l) :
    expandMetadataFrom current l = l := by
  induction l with
  | nil => rw [expandMetadataFrom]
  | cons c l ih =>
    rw [expandMetadataFrom_copy, ih]
    · exact fun hi => h (hi.trans (List.suffix_cons c l).isInfix)
    · exact fun hp => h hp.isInfix

/-- A text into which nothing is put: no reference and no macro begins in it. -/
structure IsPlain (text : String) : Prop where
  noReference : ¬ opening <:+: text.toList
  noMacro : ¬ ['$', '('] <:+: text.toList

theorem isPlain_iff {text : String} :
    IsPlain text ↔ contains "%(" text = false ∧ contains "$(" text = false := by
  rw [Bool.eq_false_iff, Bool.eq_false_iff, ne_eq, ne_eq, contains_iff, contains_iff]
  exact ⟨fun h => ⟨h.noReference, h.noMacro⟩, fun h => ⟨h.1, h.2⟩⟩

instance (text : String) : Decidable (IsPlain text) := decidable_of_iff _ isPlain_iff.symm

/-- A text and, behind it, a reference to a setting. -/
def followedBy (text name : String) : String := text ++ ";%(" ++ name ++ ")"

theorem expandMetadata_of_plain {text : String} (h : IsPlain text) :
    expandMetadata (trim text) current = trimChar ';' (trim text) := by
  rw [expandMetadata, expandMetadataFrom_eq_self fun hi => h.noReference (infix_of_trim hi),
    String.ofList_toList]

theorem trim_followedBy (text name : String) :
    (trim (followedBy text name)).toList =
      text.toList.dropWhile isBlank ++ ';' :: ('%' :: '(' :: (name.toList ++ [')'])) := by
  have hl : (followedBy text name).toList =
      text.toList ++ ';' :: ('%' :: '(' :: (name.toList ++ [')'])) := by simp [followedBy]
  have hlast : ∀ l : List Char, dropEndWhile isBlank (l ++ [')']) = l ++ [')'] := by
    intro l
    rw [dropEndWhile_concat, if_neg (by decide)]
  rw [toList_trim, hl, dropWhile_append_cons (by decide)]
  have hs := hlast (text.toList.dropWhile isBlank ++ ';' :: ('%' :: '(' :: name.toList))
  rwa [List.append_assoc] at hs

theorem expandMetadata_followedBy {text name : String} (ht : IsPlain text)
    (hn : ')' ∉ name.toList) :
    expandMetadata (trim (followedBy text name)) current =
      trimChar ';' (String.ofList (text.toList.dropWhile isBlank ++
        ';' :: ((current.find? name).getD "").toList)) := by
  have hd : ¬ opening <:+: text.toList.dropWhile isBlank :=
    fun hi => ht.noReference (infix_of_dropWhile hi)
  rw [expandMetadata, trim_followedBy, expandMetadataFrom_append_cons hd,
    expandMetadataFrom_reference hn, expandMetadataFrom, List.append_nil, String.ofList_toList]

theorem splitList_expandMetadata_of_plain {text : String} (h : IsPlain text) :
    splitList (expandMetadata (trim text) current) = splitList text := by
  rw [expandMetadata_of_plain h, splitList_trimChar, splitList_trim]

theorem splitList_expandMetadata_followedBy {text name : String} (ht : IsPlain text)
    (hn : ')' ∉ name.toList) :
    splitList (expandMetadata (trim (followedBy text name)) current) =
      splitList text ++ splitList ((current.find? name).getD "") := by
  rw [expandMetadata_followedBy ht hn, splitList_trimChar, splitList_append_cons,
    String.ofList_toList, eq_of_dropWhile (f := fun l => splitList (String.ofList l))
      (fun c l hc => splitList_cons_blank hc l), String.ofList_toList]

theorem no_macro_of_plain (current : Settings) {text : String} (h : IsPlain text) :
    ¬ ['$', '('] <:+: (expandMetadata (trim text) current).toList := by
  rw [expandMetadata_of_plain h]
  exact fun hi => h.noMacro (infix_of_trim (infix_of_trimChar hi))

theorem no_macro_of_followedBy {text name : String} (ht : IsPlain text) (hn : ')' ∉ name.toList)
    (hv : ¬ ['$', '('] <:+: ((current.find? name).getD "").toList) :
    ¬ ['$', '('] <:+: (expandMetadata (trim (followedBy text name)) current).toList := by
  intro hi
  rw [expandMetadata_followedBy ht hn] at hi
  have hi := infix_of_trimChar hi
  rw [String.toList_ofList] at hi
  rcases infix_of_append_cons (by decide) hi with hi | hi
  · exact ht.noMacro (infix_of_dropWhile hi)
  · exact hv hi

end StudioMake.MSBuild
