import StudioMake.FileSystem
import StudioMake.Xml.Document

/-!
# Sheets on disk

The documents that projects and sheets pull in. Following them ends: of the finitely many paths
that lead to a file, each one is followed once.
-/

set_option autoImplicit false

namespace StudioMake.FileSystem

def documentAt? (fs : FileSystem) (path : NormalPath) : Option Xml.Element :=
  (fs.textAt? path).bind Xml.Element.ofFile?

theorem mem_spellings_of_documentAt? {fs : FileSystem} {path : NormalPath} {root : Xml.Element}
    (h : fs.documentAt? path = some root) : path ∈ fs.spellings := by
  obtain ⟨text, ht, _⟩ := Option.bind_eq_some_iff.1 h
  exact mem_spellings_of_textAt? ht

theorem unread_concat_lt_of_documentAt? {fs : FileSystem} {visited : List NormalPath}
    {path : NormalPath} {root : Xml.Element} (hp : path ∉ visited)
    (h : fs.documentAt? path = some root) :
    fs.unread (visited ++ [path]) < fs.unread visited := by
  obtain ⟨text, ht, _⟩ := Option.bind_eq_some_iff.1 h
  exact unread_concat_lt hp ht

/-- The order in which following files goes down: first the number of paths still unread, then the
work at hand. -/
theorem follow_lt {fs : FileSystem} {visited : List NormalPath} (path : NormalPath) {m n : Nat}
    (h : m < n) :
    Prod.Lex (· < ·) (· < ·) (fs.unread (visited ++ [path]), m) (fs.unread visited, n) := by
  have := fs.unread_concat_le visited path
  rw [Prod.lex_def]
  simp only
  omega

end StudioMake.FileSystem
