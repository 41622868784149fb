import StudioMake.Format
import StudioMake.Project.Configuration

/-!
# Projects

What is known of a project once it is loaded, whatever format it was read from. The project holds
its files in one list; configurations and filters refer to them by index.
-/

set_option autoImplicit false

namespace StudioMake

structure File where
  relativePath : String
  absolutePath : NormalPath := {}
  name : String
  filter : Option String := none
  excluded : List String := []
  forcedInclude : Bool := false
  precompiledHeader : Bool := false
  /-- The file is compiled as C whatever its extension. -/
  compileAsC : Bool := false
deriving DecidableEq

namespace File

def unixPath (f : File) : String := Path.toUnix f.relativePath

def extension? (f : File) : Option String := (Text.splitExtension? f.name).map Prod.snd

def stem (f : File) : String := ((Text.splitExtension? f.name).map Prod.fst).getD f.name

def cExtensions : List String := ["c"]

def cppExtensions : List String := ["cc", "cpp", "cxx", "c++", "cp", "C", "CPP"]

def isC (f : File) : Bool := f.extension?.any cExtensions.contains

def isCpp (f : File) : Bool := f.extension?.any cppExtensions.contains

def isSource (f : File) : Bool := f.isC || f.isCpp

def isExcludedFrom (f : File) (configuration : String) : Bool := f.excluded.contains configuration

def excludeFrom (f : File) (configuration : String) : File :=
  if f.isExcludedFrom configuration then f
  else { f with excluded := f.excluded ++ [configuration] }

end File

structure Filter where
  name : String
  extensions : Option String := none
  files : List Nat := []
  filters : List Filter := []

instance : Inhabited Filter := ⟨{ name := "" }⟩

def Filter.fileCount : Filter → Nat
  | ⟨_, _, files, filters⟩ => files.length + sum filters
where
  sum : List Filter → Nat
    | [] => 0
    | f :: rest => fileCount f + sum rest

/-- A filter and all filters below it, each before those that it holds. -/
def Filter.branch : Filter → List Filter
  | ⟨name, extensions, files, filters⟩ => ⟨name, extensions, files, filters⟩ :: branches filters
where
  branches : List Filter → List Filter
    | [] => []
    | f :: rest => branch f ++ branches rest

theorem Filter.branches_eq (l : List Filter) : branch.branches l = l.flatMap branch := by
  induction l with
  | nil => rfl
  | cons f rest ih => rw [branch.branches, ih, List.flatMap_cons]

theorem Filter.branch_eq (f : Filter) : f.branch = f :: f.filters.flatMap branch := by
  rw [← branches_eq]
  cases f
  rw [branch]

mutual

theorem Filter.fileCount_eq (f : Filter) : f.fileCount = (f.branch.flatMap files).length := by
  obtain ⟨name, extensions, files, filters⟩ := f
  rw [fileCount, sum_fileCount filters, branch_eq, List.flatMap_cons, List.length_append]

theorem Filter.sum_fileCount (l : List Filter) :
    fileCount.sum l = ((l.flatMap branch).flatMap files).length := by
  match l with
  | [] => rfl
  | f :: rest =>
    rw [fileCount.sum, fileCount_eq f, sum_fileCount rest, List.flatMap_cons, List.flatMap_append,
      List.length_append]

end

structure Project where
  format : Format := .unknown
  name : String := ""
  guid : String := ""
  rootNamespace : String := ""
  keyword : String := ""
  projectType : String := ""
  version : String := ""
  path : String := ""
  absolutePath : String := ""
  directory : String := ""
  platforms : List String := []
  configurations : List Configuration := []
  files : List File := []
  filters : List Filter := []
  warnings : List String := []

namespace Project

def configuration? (p : Project) (name : String) : Option Configuration :=
  p.configurations.find? (·.name = name)

def allFilters (p : Project) : List Filter := p.filters.flatMap Filter.branch

def filesOf (p : Project) (c : Configuration) : List File :=
  c.files.filterMap (p.files[·]?)

def sourcesOf (p : Project) (c : Configuration) : List File :=
  (p.filesOf c).filter File.isSource

/-- The names of the configurations without their platforms, each once. -/
def configurationNames (p : Project) : List String :=
  (p.configurations.map Configuration.configurationName).eraseDups

end Project

end StudioMake
