import StudioMake.Path.Basic

/-!
# Lexically resolved paths

A resolved path holds names only, but for one `..` that may stand before them. A climb takes away
the last name; with no name left it puts the `..` in front, or takes it away again.
-/

set_option autoImplicit false

namespace StudioMake

/-- A path without `.` and with at most one `..`, which comes before every name. -/
structure NormalPath where
  rooted : Bool := false
  /-- A `..` stands before the names. -/
  climbs : Bool := false
  names : List String := []
deriving DecidableEq, Inhabited

namespace NormalPath

def follow (p : NormalPath) (segment : String) : NormalPath :=
  if segment = ".." then
    if p.names = [] then { p with climbs := !p.climbs } else { p with names := p.names.dropLast }
  else { p with names := p.names ++ [segment] }

def ofPath (path : String) : NormalPath :=
  (Path.segments path).foldl follow { rooted := Path.isAbsolute path }

def segments (p : NormalPath) : List String :=
  (if p.climbs then [".."] else []) ++ p.names

def toString (p : NormalPath) : String :=
  (if p.rooted then "/" else "") ++ "/".intercalate p.segments

instance : ToString NormalPath := ⟨toString⟩

def parent (p : NormalPath) : NormalPath :=
  if p.names = [] then { rooted := p.rooted && p.climbs } else { p with names := p.names.dropLast }

/-- Resolves the text of a path, with either separator and blanks around it, against `base`. -/
def resolve (base text : String) : NormalPath :=
  ofPath (Path.join base (Path.slashes (Text.trim text)))

theorem rooted_follow (p : NormalPath) (segment : String) :
    (p.follow segment).rooted = p.rooted := by
  unfold follow
  split
  · split <;> rfl
  · rfl

theorem rooted_foldl_follow (l : List String) (p : NormalPath) :
    (l.foldl follow p).rooted = p.rooted := by
  induction l generalizing p with
  | nil => rfl
  | cons segment rest ih => rw [List.foldl_cons, ih, rooted_follow]

theorem rooted_ofPath (path : String) : (ofPath path).rooted = Path.isAbsolute path :=
  rooted_foldl_follow _ _

example : (resolve "/a/b" "..\\..\\..\\c").toString = "/../c" := by decide +kernel

example : (resolve "" "..\\..").toString = "" := by decide +kernel

end NormalPath

end StudioMake
