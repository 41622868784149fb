import StudioMake.MSBuild.Document
import StudioMake.Seeds
import StudioMake.VisualStudio.Document

/-!
# Loading projects

The text of a project is read in the format that it is found to be in. A project without files is
loaded with a warning.
-/

set_option autoImplicit false

namespace StudioMake.Project

def ofRoot (fs : FileSystem) (l : Location) (seeds : Seeds) (root : Xml.Element) :
    Except Failure Project :=
  match Format.ofRoot root with
  | .vcproj => VisualStudio.readProject fs l (seeds.macros .vcproj) root
  | .vcxproj => MSBuild.readProject fs l (seeds.macros .vcxproj) root
  | other => .error (.unsupportedFormat l.path other)

/-- Adds the warning about a project that lists no files. -/
def warnIfNoFiles (p : Project) : Project :=
  if p.files.isEmpty then
    { p with warnings := p.warnings ++ [p.path ++ ": project contains no files"] }
  else p

/-- The project that a text describes, as if it stood at `path`. -/
def ofText (fs : FileSystem) (seeds : Seeds) (path source : String) : Except Failure Project :=
  let text := (Text.dropLead? "\uFEFF" source).getD source
  if Text.isAllBlank text then .error (.empty path)
  else if Format.isSolution text then .error (.unsupportedFormat path .solution)
  else
    match Xml.Element.ofDocument? text with
    | none => .error .malformedXml
    | some root =>
      (ofRoot fs (Location.ofPath fs.workingPath path) seeds root).map warnIfNoFiles

theorem ofText_of_document {fs : FileSystem} {seeds : Seeds} {path source : String}
    {root : Xml.Element} {p : Project} (hl : Text.dropLead? "\uFEFF" source = none)
    (hb : Text.isAllBlank source = false) (hs : Format.isSolution source = false)
    (hd : Xml.Element.ofDocument? source = some root)
    (hp : ofRoot fs (Location.ofPath fs.workingPath path) seeds root = .ok p) :
    ofText fs seeds path source = .ok (warnIfNoFiles p) := by
  simp [ofText, hl, hb, hs, hd, hp, Except.map]

theorem exists_readProject_of_ofText {fs : FileSystem} {seeds : Seeds} {path source : String}
    {p : Project} (h : ofText fs seeds path source = .ok p) :
    ∃ (l : Location) (macros : MacroTable) (root : Xml.Element) (q : Project),
      p = warnIfNoFiles q ∧ (VisualStudio.readProject fs l macros root = .ok q ∨
        MSBuild.readProject fs l macros root = .ok q) := by
  unfold ofText at h
  simp only at h
  split at h
  · cases h
  split at h
  · cases h
  split at h
  · cases h
  · next root _ =>
    cases hq : ofRoot fs (Location.ofPath fs.workingPath path) seeds root with
    | error e =>
      rw [hq] at h
      cases h
    | ok q =>
      rw [hq] at h
      cases h
      unfold ofRoot at hq
      split at hq
      · exact ⟨_, _, root, q, rfl, .inl hq⟩
      · exact ⟨_, _, root, q, rfl, .inr hq⟩
      · cases hq

def load (fs : FileSystem) (seeds : Seeds) (path : String) : Except Failure Project :=
  if fs.pathExists path then
    match fs.readText path with
    | .ok source => ofText fs seeds path source
    | .error cause => .error (.unreadable path cause)
  else .error (.notFound path)

end StudioMake.Project
