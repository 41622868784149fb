import StudioMake.Makefile.ProjectRules
import StudioMake.Project.Load
import StudioMake.Report

/-!
# Invocations

One run loads a project and either reports on it or writes its makefile. A run goes on step by step,
and what it has shown and written by then stays when a step fails.
-/

set_option autoImplicit false

namespace StudioMake

structure Invocation where
  input : String
  /-- The directory for the makefile, which must exist. -/
  output : String := "."
  request : Option Report.Request := none
  seeds : Seeds := {}

structure Outcome where
  text : String := ""
  files : FileSystem

namespace Invocation

/-- A step of a run: it goes on from what the steps before it have left, and may fail. -/
abbrev Step (α : Type) := ExceptT Failure (StateM Outcome) α

namespace Step

variable {α : Type}

def after (x : Step α) (left : Outcome) : Except Failure α × Outcome := x.run.run left

def ask (f : FileSystem → Except Failure α) : Step α := do
  ExceptT.mk (return f (← get).files)

def replaceFiles (files : FileSystem) : Step Unit := modify fun left => { left with files }

def display (text : String) : Step Unit :=
  modify fun left => { left with text := left.text ++ text }

end Step

open Step

def checkOutput (fs : FileSystem) (output : String) : Except Failure Unit :=
  if !fs.pathExists output then .error (.notFound output)
  else if !fs.isDirectory output then .error (.notADirectory output)
  else .ok ()

def announcement (fs : FileSystem) (output : String) : String :=
  "Output: " ++ Path.absolute fs.workingPath (Makefile.pathIn output) ++ "\n"

def writeMakefile (output : String) (p : Project) : Step Unit := do
  replaceFiles (← ask fun fs => Makefile.writeTo fs output p)
  display (← ask fun fs => .ok (announcement fs output))

def report (request : Report.Request) (p : Project) : Step Unit := do
  display (← ask fun _ => Report.text p request)

def run (i : Invocation) : Step Unit := do
  ask fun fs => checkOutput fs i.output
  let p ← ask fun fs => Project.load fs i.seeds i.input
  match i.request with
  | some request => report request p
  | none => writeMakefile i.output p

def outcome (fs : FileSystem) (i : Invocation) : Except Failure Outcome :=
  match i.run.after { files := fs } with
  | (.ok _, left) => .ok left
  | (.error cause, _) => .error cause

end Invocation

end StudioMake
