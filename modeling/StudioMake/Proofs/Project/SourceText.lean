import StudioMake.Project.Load

/-!
# Reading the characters of a project

Whether a text is read as a project can be told from its characters alone: it starts with no
byte-order mark, holds more than blanks, is no solution and is a document with some root.
-/

set_option autoImplicit false

namespace StudioMake.Project

open Xml

def rootOf? (l : List Char) : Option Element :=
  if ['\uFEFF'].isPrefixOf l || l.all Text.isBlank || ["10.00", "11.00"].any (fun version =>
      (Text.around? ("Microsoft Visual Studio Solution File, Format Version " ++ version).toList
        l).isSome) || !l.all isXmlChar then none
  else do
    let l ← afterDeclaration? l
    let markup ← Markup.all? l
    let building ← markup.foldlM Building.add? {}
    if building.stack.isEmpty then building.root else none

variable {fs : FileSystem} {seeds : Seeds} {path source : String} {root : Element} {p : Project}

/-- A text that is read as the document with a root. -/
structure IsDocument (source : String) (root : Element) : Prop where
  lead : Text.dropLead? "\uFEFF" source = none
  not_blank : Text.isAllBlank source = false
  not_solution : Format.isSolution source = false
  document : Element.ofDocument? source = some root

theorem isDocument_of_rootOf? (h : rootOf? source.toList = some root) : IsDocument source root := by
  unfold rootOf? at h
  split at h
  · cases h
  next hn =>
  simp only [Bool.or_eq_true, not_or, Bool.not_eq_true, Bool.not_eq_false'] at hn
  obtain ⟨⟨⟨hlead, hblank⟩, hsolution⟩, hchars⟩ := hn
  have hdrop : Text.dropLead? "\uFEFF" source = none := by
    rw [Text.dropLead?, if_neg]
    rw [Bool.not_eq_true]
    exact hlead
  refine ⟨hdrop, hblank, hsolution, ?_⟩
  rw [Element.ofDocument?, hdrop, Option.getD_none, if_pos hchars]
  exact h

/-- The bytes of a file are read without the text that they make up. -/
theorem ofFile?_of_rootOf? {bytes : Bytes} (h : rootOf? (Text.Utf8.run none bytes) = some root) :
    Element.ofFile? (Text.Utf8.decode bytes) = some root := by
  have hdocument : IsDocument (Text.Utf8.decode bytes) root := by
    refine isDocument_of_rootOf? ?_
    rwa [Text.Utf8.decode, String.toList_ofList]
  rw [Element.ofFile?, hdocument.lead]
  exact hdocument.document

theorem IsDocument.ofText_eq (h : IsDocument source root)
    (hp : ofRoot fs (Location.ofPath fs.workingPath path) seeds root = .ok p) :
    ofText fs seeds path source = .ok (warnIfNoFiles p) :=
  ofText_of_document h.lead h.not_blank h.not_solution h.document hp

end StudioMake.Project
