import StudioMake.SheetFile
import StudioMake.Project.Configuration
import StudioMake.VisualStudio.Tools

/-!
# Property sheets

A sheet adds directories, macros and tool settings to a configuration, after the sheets that it
lists itself. Every sheet counts once for a configuration, wherever it is reached again; one that
cannot be read counts as reached and adds nothing.
-/

set_option autoImplicit false

namespace StudioMake.VisualStudio

open Xml

/-- What property sheets add to: the tools, the two directories as they are written so far, and
the macros. -/
structure Assembly where
  tools : Tools := ∅
  outputDirectory : String := ""
  intermediateDirectory : String := ""
  macros : MacroTable
deriving DecidableEq

namespace Assembly

def defineMacro (macros : MacroTable) (definition : Element) : MacroTable :=
  match definition.attribute? "Name" with
  | none => macros
  | some name => macros.set name (macros.expand (definition.attributeD "Value"))

/-- Adds a sheet. Its macros are set before its tools are read. -/
def addSheet (a : Assembly) (sheet : Element) : Assembly :=
  let macros := (sheet.childrenNamed "UserMacro").foldl defineMacro a.macros
  { tools := collectTools macros sheet a.tools
    outputDirectory := (sheet.attribute? "OutputDirectory").getD a.outputDirectory
    intermediateDirectory := (sheet.attribute? "IntermediateDirectory").getD a.intermediateDirectory
    macros }

def sheetPath (a : Assembly) (directory entry : String) : NormalPath :=
  .resolve directory (a.macros.expand entry)

end Assembly

inductive Pending where
  /-- Look up an entry of a list of sheets in a directory. -/
  | visit (directory entry : String)
  /-- Add a sheet whose own list has been dealt with. -/
  | add (sheet : Element)

def Pending.ofList (directory list : String) : List Pending :=
  (Text.splitList list).map (.visit directory)

def Pending.ofPath (fs : FileSystem) (path : NormalPath) : List Pending :=
  match fs.documentAt? path with
  | none => []
  | some sheet =>
    Pending.ofList path.parent.toString (sheet.attributeD "InheritedPropertySheets") ++ [.add sheet]

theorem Pending.ofPath_lt {fs : FileSystem} {reached : List NormalPath} {path : NormalPath}
    (h : path ∉ reached) (pending : Pending) (rest : List Pending) :
    Prod.Lex (· < ·) (· < ·)
      (fs.unread (reached ++ [path]), (Pending.ofPath fs path ++ rest).length)
      (fs.unread reached, (pending :: rest).length) := by
  unfold Pending.ofPath
  cases hd : fs.documentAt? path with
  | none => exact FileSystem.follow_lt _ (by simp)
  | some sheet => exact Prod.Lex.left _ _ (FileSystem.unread_concat_lt_of_documentAt? h hd)

/-- Adds sheets until nothing is pending; returns the sheets reached, too. The entries of a list are
expanded with the macros that hold when their turn comes. -/
def addSheets (fs : FileSystem) :
    List Pending → List NormalPath → Assembly → List NormalPath × Assembly
  | [], reached, a => (reached, a)
  | .add sheet :: rest, reached, a => addSheets fs rest reached (a.addSheet sheet)
  | .visit directory entry :: rest, reached, a =>
    if a.sheetPath directory entry ∈ reached then addSheets fs rest reached a
    else
      addSheets fs (Pending.ofPath fs (a.sheetPath directory entry) ++ rest)
        (reached ++ [a.sheetPath directory entry]) a
termination_by pending reached => (fs.unread reached, pending.length)
decreasing_by
  · exact Prod.Lex.right _ (by simp)
  · exact Prod.Lex.right _ (by simp)
  · exact Pending.ofPath_lt ‹_› _ _

end StudioMake.VisualStudio
