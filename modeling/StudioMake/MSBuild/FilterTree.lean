import StudioMake.MSBuild.Metadata
import StudioMake.Project.Basic
import StudioMake.Text.Case

/-!
# The tree of filters

A document beside the project sorts its files into filters, each given by a path with backslashes.
A filter comes to be when a path first leads through it.
-/

set_option autoImplicit false

namespace StudioMake.MSBuild

open Xml

/-- The names before the separators of a path, cut off one after the other, and the rest unless it
is empty behind a separator. -/
def namesFrom (path : List Char) : List String :=
  match h : Text.cut? '\\' path with
  | none => [String.ofList path]
  | some (name, rest) =>
    have := Text.length_of_cut? h
    if rest.isEmpty then [String.ofList name] else String.ofList name :: namesFrom rest
termination_by path.length

def filterSegments (path : String) : List String := namesFrom path.toList

def alterFilter (name : String) (f : Filter → Filter) : List Filter → List Filter
  | [] => [f { name }]
  | x :: rest => if x.name = name then f x :: rest else x :: alterFilter name f rest

/-- Changes the filter at the end of a path, adding those that are missing on the way. -/
def alterFilterAt (f : Filter → Filter) : List String → List Filter → List Filter
  | [], filters => filters
  | [name], filters => alterFilter name f filters
  | name :: rest, filters =>
    alterFilter name (fun x => { x with filters := alterFilterAt f rest x.filters }) filters

structure Sorting where
  files : List File
  filters : List Filter := []

namespace Sorting

/-- The last file whose path is `path` up to letter case. -/
def indexOf? (files : List File) (path : String) : Option Nat :=
  ((files.zipIdx.filter fun entry =>
    Text.sameIgnoringCase entry.1.relativePath path).map Prod.snd).getLast?

def lastName (path : String) : String :=
  ((Text.splitAll (· == '\\') path).getLast?).getD ""

def setFilter (files : List File) (index : Nat) (name : String) : List File :=
  files.modify index fun f => { f with filter := some name }

def add (s : Sorting) (item : Element) : Sorting :=
  match item.attribute? "Include" with
  | none => s
  | some path =>
    if item.name = "Filter" then
      { s with
        filters := alterFilterAt
          (fun f => { f with extensions := childText? item "Extensions" }) (filterSegments path)
          s.filters }
    else
      match childText? item "Filter", indexOf? s.files path with
      | some folder, some index =>
        { files := setFilter s.files index (lastName folder)
          filters := alterFilterAt (fun f => { f with files := f.files ++ [index] })
            (filterSegments folder) s.filters }
      | _, _ => s

def ofDocument (files : List File) (root : Element) : Sorting :=
  ((root.childrenNamed "ItemGroup").flatMap Element.children).foldl add { files }

end Sorting

end StudioMake.MSBuild
