import StudioMake.Project.Basic
import StudioMake.Xml.Element

/-!
# The listing of files

Below `<Files>` an element with a relative path is a file, and another one with a name is a filter.
Anything else is left out with all that it holds. Files are numbered depth first in document order,
in the list of files and in the tree of filters alike.
-/

set_option autoImplicit false

namespace StudioMake.VisualStudio

open Xml

def isFile (e : Element) : Bool := e.hasAttribute "RelativePath"

def isFilter (e : Element) : Bool := !isFile e && e.hasAttribute "Name"

def filterName? (e : Element) : Option String :=
  if isFilter e then e.attribute? "Name" else none

inductive Listing where
  | file (e : Element)
  | filter (name : String) (extensions : Option String) (entries : List Listing)

namespace Listing

mutual

def ofElement : Element → List Listing
  | ⟨name, attributes, text, children⟩ =>
    let e : Element := ⟨name, attributes, text, []⟩
    if isFile e then [.file ⟨name, attributes, text, children⟩]
    else if isFilter e then
      [.filter (e.attributeD "Name") (e.attribute? "Filter") (ofElements children)]
    else []

def ofElements : List Element → List Listing
  | [] => []
  | e :: rest => ofElement e ++ ofElements rest

end

mutual

/-- The file elements of an entry, each with the name of the filter that lists it. -/
def entryFiles (outer : Option String) : Listing → List (Option String × Element)
  | .file e => [(outer, e)]
  | .filter name _ entries => files (some name) entries

def files (outer : Option String) : List Listing → List (Option String × Element)
  | [] => []
  | entry :: rest => entryFiles outer entry ++ files outer rest

end

/-- The files directly in a listing, the filters in it and the number after its last file, where
`n` is the number of its first file. -/
def number (n : Nat) : List Listing → List Nat × List Filter × Nat
  | [] => ([], [], n)
  | .file _ :: rest =>
    let (files, filters, next) := number (n + 1) rest
    (n :: files, filters, next)
  | .filter name extensions entries :: rest =>
    let (inner, below, next) := number n entries
    let (files, filters, next) := number next rest
    (files, { name, extensions, files := inner, filters := below } :: filters, next)

def filters (l : List Listing) : List Filter := (number 0 l).2.1

end Listing

end StudioMake.VisualStudio
