import StudioMake.Path.Normal
import StudioMake.Text.Utf8

/-!
# Files and directories

A file system is a finite list of locations, each a list of names from the root. A path is followed
name by name, as an operating system does: every place it passes through must be a directory.
-/

set_option autoImplicit false

namespace StudioMake

inductive OSError where
  | notFound
  | notADirectory
  | isADirectory
deriving DecidableEq

def OSError.message : OSError → String
  | .notFound => "No such file or directory (os error 2)"
  | .notADirectory => "Not a directory (os error 20)"
  | .isADirectory => "Is a directory (os error 21)"

abbrev Bytes := List UInt8

inductive FileSystem.Entry where
  | directory
  | file (content : Bytes)
deriving DecidableEq

/-- The places from the root and what stands there, with the directory that relative paths
start from. -/
structure FileSystem where
  workingDirectory : List String := []
  entries : List (List String × FileSystem.Entry) := []
deriving DecidableEq

namespace FileSystem

def entry? (fs : FileSystem) (place : List String) : Option Entry :=
  if place = [] then some .directory else fs.entries.lookup place

def workingPath (fs : FileSystem) : String :=
  "/" ++ "/".intercalate fs.workingDirectory

def put (fs : FileSystem) (place : List String) (entry : Entry) : FileSystem :=
  { fs with entries := fs.entries.filter (·.1 ≠ place) ++ [(place, entry)] }

def addDirectory (fs : FileSystem) (place : List String) : FileSystem :=
  ((List.range (place.length + 1)).map place.take).foldl
    (fun fs above => if (fs.entry? above).isSome then fs else fs.put above .directory) fs

def addFile (fs : FileSystem) (place : List String) (content : Bytes) : FileSystem :=
  (fs.addDirectory place.dropLast).put place (.file content)

def walk (fs : FileSystem) (place : List String) : List String → Except OSError (List String)
  | [] => .ok place
  | name :: rest =>
    match fs.entry? place with
    | none => .error .notFound
    | some (.file _) => .error .notADirectory
    | some .directory =>
      if name = "." then walk fs place rest
      else if name = ".." then walk fs place.dropLast rest
      else walk fs (place ++ [name]) rest

/-- The steps of a path; a slash at the end asks for a directory. -/
def steps (path : String) : List String :=
  (Text.splitAll (· == '/') path).filter (· ≠ "") ++ if Path.endsInSlash path then ["."] else []

/-- The place that a path leads to, whether or not something stands there. -/
def place (fs : FileSystem) (path : String) : Except OSError (List String) :=
  if path = "" then .error .notFound
  else fs.walk (if Path.isAbsolute path then [] else fs.workingDirectory) (steps path)

def stat (fs : FileSystem) (path : String) : Except OSError Entry := do
  let place ← fs.place path
  match fs.entry? place with
  | some entry => .ok entry
  | none => .error .notFound

def pathExists (fs : FileSystem) (path : String) : Bool :=
  (fs.stat path).toBool

def isDirectory (fs : FileSystem) (path : String) : Bool :=
  match fs.stat path with
  | .ok .directory => true
  | _ => false

def read (fs : FileSystem) (path : String) : Except OSError Bytes := do
  match ← fs.stat path with
  | .file content => .ok content
  | .directory => .error .isADirectory

def readText (fs : FileSystem) (path : String) : Except OSError String :=
  (fs.read path).map Text.Utf8.decode

def write (fs : FileSystem) (path : String) (content : Bytes) : Except OSError FileSystem := do
  let place ← fs.place path
  match fs.entry? place with
  | some .directory => .error .isADirectory
  | _ => .ok (fs.put place (.file content))

def origin (fs : FileSystem) (p : NormalPath) : List String :=
  let start := if p.rooted then [] else fs.workingDirectory
  if p.climbs then start.dropLast else start

def entryAt? (fs : FileSystem) (p : NormalPath) : Option Entry :=
  if p = {} then none else fs.entry? (fs.origin p ++ p.names)

def textAt? (fs : FileSystem) (p : NormalPath) : Option String :=
  match fs.entryAt? p with
  | some (.file content) => some (Text.Utf8.decode content)
  | _ => none

/-- The resolved paths that can lead to a place: from the root or from the working directory,
with or without a climb. -/
def spellingsOf (fs : FileSystem) (place : List String) : List NormalPath :=
  [⟨true, false, place⟩, ⟨true, true, place⟩,
   ⟨false, false, place.drop fs.workingDirectory.length⟩,
   ⟨false, true, place.drop fs.workingDirectory.dropLast.length⟩]

def spellings (fs : FileSystem) : List NormalPath :=
  fs.entries.flatMap fun item => fs.spellingsOf item.1

theorem mem_spellingsOf (fs : FileSystem) (p : NormalPath) :
    p ∈ fs.spellingsOf (fs.origin p ++ p.names) := by
  obtain ⟨rooted, climbs, names⟩ := p
  cases rooted <;> cases climbs <;> simp [spellingsOf, origin]

theorem mem_keys_of_lookup {l : List (List String × Entry)} {place : List String} {entry : Entry}
    (h : l.lookup place = some entry) : (place, entry) ∈ l := by
  induction l with
  | nil => simp at h
  | cons item rest ih =>
    obtain ⟨place', entry'⟩ := item
    by_cases hp : place = place'
    · subst hp
      simp only [List.lookup_cons, beq_self_eq_true, Option.some.injEq] at h
      simp [h]
    · simp only [List.lookup_cons, beq_false_of_ne hp] at h
      exact List.mem_cons_of_mem _ (ih h)

theorem mem_spellings_of_textAt? {fs : FileSystem} {p : NormalPath} {text : String}
    (h : fs.textAt? p = some text) : p ∈ fs.spellings := by
  unfold textAt? at h
  split at h
  · next content he =>
    simp only [entryAt?, entry?] at he
    split at he
    · cases he
    · split at he
      · cases he
      · exact List.mem_flatMap.2 ⟨_, mem_keys_of_lookup he, fs.mem_spellingsOf p⟩
  · cases h

/-- How many readable paths are still unvisited: the bound for following files from files. -/
def unread (fs : FileSystem) (visited : List NormalPath) : Nat :=
  (fs.spellings.filter (· ∉ visited)).length

theorem unread_concat_le (fs : FileSystem) (visited : List NormalPath) (p : NormalPath) :
    fs.unread (visited ++ [p]) ≤ fs.unread visited := by
  unfold unread
  rw [← List.countP_eq_length_filter, ← List.countP_eq_length_filter]
  apply List.countP_mono_left
  intro q _ hq
  simp_all

theorem unread_concat_lt {fs : FileSystem} {visited : List NormalPath} {p : NormalPath}
    {text : String} (hp : p ∉ visited) (h : fs.textAt? p = some text) :
    fs.unread (visited ++ [p]) < fs.unread visited := by
  have hm := mem_spellings_of_textAt? h
  unfold unread
  generalize fs.spellings = l at hm
  induction l with
  | nil => simp at hm
  | cons q rest ih =>
    have hle : (rest.filter (· ∉ visited ++ [p])).length ≤ (rest.filter (· ∉ visited)).length := by
      rw [← List.countP_eq_length_filter, ← List.countP_eq_length_filter]
      apply List.countP_mono_left
      intro r _ hr
      simp_all
    by_cases hq : q = p
    · subst hq
      simp only [List.filter_cons]
      simp [hp]
      simp at hle
      omega
    · have ih' := ih (by simpa [Ne.symm hq] using hm)
      by_cases hv : q ∈ visited
      · simpa [List.filter_cons, hv] using ih'
      · simpa [List.filter_cons, hv, hq] using ih'

end FileSystem

end StudioMake
