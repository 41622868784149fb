import StudioMake.Proofs.MSBuild.Metadata

/-!
# References among the entries of a list

Where each entry of a list is a text or one reference from end to end, the references can be
replaced in the written list as well as entry by entry. What is put in brings its own semicolons and
blanks, which become those of the list.
-/

set_option autoImplicit false

namespace StudioMake.MSBuild

open Text

variable {current : Settings}

def reference (name : String) : String := "%(" ++ name ++ ")"

def referenced? (entry : String) : Option String :=
  match entry.toList with
  | '%' :: '(' :: rest =>
    if rest.getLast? = some ')' ∧ ')' ∉ rest.dropLast then some (String.ofList rest.dropLast)
    else none
  | _ => none

/-- The entries that an entry stands for: those of the setting that it refers to, none if this has
no value, or else itself. -/
def entriesOf (current : Settings) (entry : String) : List String :=
  match referenced? entry with
  | some name => splitList ((current.find? name).getD "")
  | none => [entry]

/-- An entry in which no reference begins, or that is one from end to end. -/
inductive IsWhole : String → Prop
  | text {entry : String} (h : ¬ opening <:+: entry.toList) : IsWhole entry
  | named {name : String} (hclosing : ')' ∉ name.toList) (hsemicolon : ';' ∉ name.toList) :
      IsWhole (reference name)

theorem isBlank_eq_false_of_mem_opening : ∀ c ∈ opening, isBlank c = false := by
  rw [opening, List.forall_mem_cons, List.forall_mem_singleton]
  exact ⟨by decide, by decide⟩

theorem toList_reference (name : String) :
    (reference name).toList = '%' :: '(' :: (name.toList ++ [')']) := by
  simp [reference]

theorem reference_ne_empty (name : String) : reference name ≠ "" := by
  intro h
  have hl := congrArg String.toList h
  rw [toList_reference] at hl
  cases hl

theorem referenced?_reference {name : String} (h : ')' ∉ name.toList) :
    referenced? (reference name) = some name := by
  rw [referenced?, toList_reference]
  simp [h]

theorem referenced?_of_text {entry : String} (h : ¬ opening <:+: entry.toList) :
    referenced? entry = none := by
  rw [referenced?]
  split
  · next rest hl =>
    rw [hl] at h
    exact absurd (List.prefix_append opening rest).isInfix h
  · rfl

theorem expandMetadataFrom_append_of_notMem {a : List Char} (h : '%' ∉ a) (rest : List Char) :
    expandMetadataFrom current (a ++ rest) = a ++ expandMetadataFrom current rest := by
  induction a with
  | nil => rfl
  | cons c a ih =>
    rw [List.mem_cons, not_or] at h
    rw [List.cons_append, expandMetadataFrom_copy, ih h.2]
    · rfl
    · intro hp
      exact h.1 (List.cons_prefix_cons.1 hp).1

theorem expandMetadataFrom_between_blanks (current : Settings) {lead trail : List Char}
    {name : String} (hlead : ∀ c ∈ lead, isBlank c = true) (htrail : ∀ c ∈ trail, isBlank c = true)
    (hname : ')' ∉ name.toList) (rest : List Char) :
    expandMetadataFrom current (lead ++ (reference name).toList ++ trail ++ rest) =
      lead ++ ((current.find? name).getD "").toList ++ trail ++
        expandMetadataFrom current rest := by
  have hblank {l : List Char} (h : ∀ c ∈ l, isBlank c = true) : '%' ∉ l :=
    fun hm => absurd (h '%' hm) (by decide)
  have hl : lead ++ (reference name).toList ++ trail ++ rest =
      lead ++ ('%' :: '(' :: (name.toList ++ ')' :: (trail ++ rest))) := by
    simp [toList_reference]
  rw [hl, expandMetadataFrom_append_of_notMem (hblank hlead), expandMetadataFrom_reference hname,
    expandMetadataFrom_append_of_notMem (hblank htrail), String.ofList_toList]
  simp only [List.append_assoc]

/-- What a piece of a written list becomes, as the last one and with other pieces behind it. -/
structure Becomes (current : Settings) (piece out : List Char) : Prop where
  last : expandMetadataFrom current piece = out
  followed (rest : List Char) : expandMetadataFrom current (piece ++ ';' :: rest) =
    out ++ ';' :: expandMetadataFrom current rest

theorem becomes_of_text {piece : List Char} (h : ¬ opening <:+: piece) :
    Becomes current piece piece :=
  ⟨expandMetadataFrom_eq_self h, expandMetadataFrom_append_cons h⟩

theorem becomes_of_reference {lead trail : List Char} {name : String}
    (hlead : ∀ c ∈ lead, isBlank c = true) (htrail : ∀ c ∈ trail, isBlank c = true)
    (hname : ')' ∉ name.toList) :
    Becomes current (lead ++ (reference name).toList ++ trail)
      (lead ++ ((current.find? name).getD "").toList ++ trail) := by
  have hexpand := expandMetadataFrom_between_blanks current hlead htrail hname
  constructor
  · have hend := hexpand []
    rwa [expandMetadataFrom, List.append_nil, List.append_nil] at hend
  · intro rest
    have hcopy : expandMetadataFrom current (';' :: rest) =
        ';' :: expandMetadataFrom current rest :=
      expandMetadataFrom_append_of_notMem (a := [';']) (by decide) rest
    rw [hexpand, hcopy]

theorem exists_becomes (current : Settings) {piece : List Char} (hpiece : ';' ∉ piece)
    (h : IsWhole (trim (String.ofList piece))) :
    ∃ out, Becomes current piece out ∧
      splitList (String.ofList out) =
        (splitList (String.ofList piece)).flatMap (entriesOf current) := by
  rw [splitList_of_notMem hpiece]
  generalize hentry : trim (String.ofList piece) = entry at h
  cases h with
  | text htext =>
    have hplain : ¬ opening <:+: piece := by
      intro hi
      rw [← String.toList_ofList (l := piece)] at hi
      exact htext (hentry ▸ infix_trim isBlank_eq_false_of_mem_opening hi)
    refine ⟨piece, becomes_of_text hplain, ?_⟩
    rw [splitList_of_notMem hpiece, hentry]
    by_cases hempty : entry = ""
    · simp [hempty]
    · simp [hempty, entriesOf, referenced?_of_text htext]
  | @named name hclosing _ =>
    obtain ⟨lead, trail, hl, hlead, htrail⟩ := exists_toList_eq_trim (String.ofList piece)
    rw [String.toList_ofList, hentry] at hl
    have hbecomes : Becomes current _ _ := becomes_of_reference hlead htrail hclosing
    rw [← hl] at hbecomes
    refine ⟨_, hbecomes, ?_⟩
    rw [splitList_blanks hlead htrail, String.ofList_toList]
    simp [reference_ne_empty, entriesOf, referenced?_reference hclosing]

theorem splitList_expandMetadataFrom {l : List Char}
    (h : ∀ piece ∈ pieces (· == ';') l, IsWhole (trim (String.ofList piece))) :
    splitList (String.ofList (expandMetadataFrom current l)) =
      (splitList (String.ofList l)).flatMap (entriesOf current) := by
  induction l using pieces_induction (c := ';') with
  | last piece hpiece =>
    rw [pieces_of_notMem hpiece, List.forall_mem_singleton] at h
    obtain ⟨out, hbecomes, hout⟩ := exists_becomes current hpiece h
    rw [hbecomes.last, hout]
  | cons piece rest hpiece ih =>
    rw [pieces_append (by simp), pieces_of_notMem hpiece, List.singleton_append,
      List.forall_mem_cons] at h
    obtain ⟨out, hbecomes, hout⟩ := exists_becomes current hpiece h.1
    rw [hbecomes.followed, splitList_append_cons, splitList_append_cons, hout, ih h.2,
      List.flatMap_append]

/-- The entries of a list after its references are replaced are those that its entries stand for,
in place and in order. A list that is put together with a semicolon has the entries of both
parts. -/
theorem splitList_expandMetadata (current : Settings) {value : String}
    (h : ∀ piece ∈ splitAll (· == ';') value, IsWhole (trim piece)) :
    splitList (expandMetadata value current) = (splitList value).flatMap (entriesOf current) ∧
    ∀ a b, splitList (a ++ ";" ++ b) = splitList a ++ splitList b := by
  refine ⟨?_, splitList_append⟩
  rw [splitAll, List.forall_mem_map] at h
  rw [expandMetadata, splitList_trimChar, splitList_expandMetadataFrom h, String.ofList_toList]

def spacedSettings : Settings := .ofList [("Dirs", "; b ;;c "), ("a%(b", "d"), ("", " ; ")]

def spacedList : String := " a% ;%(Dirs) ;; %(a%(b);\t%(Unset);%();e)"

theorem splitList_expandMetadata_spaced :
    (∀ piece ∈ splitAll (· == ';') spacedList, IsWhole (trim piece)) ∧
    splitList (expandMetadata spacedList spacedSettings) = ["a%", "b", "c", "d", "e)"] := by
  have hpieces : (splitAll (· == ';') spacedList).map trim =
      ["a%", reference "Dirs", "", reference "a%(b", reference "Unset", reference "", "e)"] := by
    decide +kernel
  have hwhole : ∀ piece ∈ splitAll (· == ';') spacedList, IsWhole (trim piece) := by
    rw [← List.forall_mem_map, hpieces]
    simp only [List.forall_mem_cons]
    exact ⟨.text (by decide), .named (by decide) (by decide), .text (by decide),
      .named (by decide) (by decide), .named (by decide) (by decide),
      .named (by decide) (by decide), .text (by decide), nofun⟩
  refine ⟨hwhole, ?_⟩
  rw [(splitList_expandMetadata spacedSettings hwhole).1]
  decide +kernel

end StudioMake.MSBuild
