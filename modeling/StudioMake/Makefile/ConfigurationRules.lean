import StudioMake.Makefile.Objects
import StudioMake.Project.Flags

/-!
# The rules of a configuration

A configuration is built under the name of its rule: first the directories and the precompiled
header, then the objects and the target. The flags hold while the target is built, so that one
makefile serves every configuration.
-/

set_option autoImplicit false

namespace StudioMake.Makefile

def shownVariables : List String :=
  ["CPPFLAGS", "CFLAGS", "CXXFLAGS", "ARFLAGS", "LDFLAGS", "INTDIR", "OUTDIR", "TARGET"]

def echo (text : String) : String := "@echo \"" ++ text ++ "\""

def spaced (statements : List Statement) : List Statement :=
  statements.flatMap fun s => [s, .blank]

theorem filterMap_spaced {α : Type} {f : Statement → Option α} (h : f .blank = none)
    (l : List Statement) : (spaced l).filterMap f = l.filterMap f := by
  induction l with
  | nil => rfl
  | cons s l ih =>
    have hs : spaced (s :: l) = s :: .blank :: spaced l := rfl
    rw [hs, List.filterMap_cons, List.filterMap_cons_none h, List.filterMap_cons, ih]

def statsRule (c : Configuration) : Statement :=
  .rule (c.ruleName ++ "Stats") []
    (echo ("Configuration: " ++ c.name) ::
      shownVariables.map fun name => echo (name ++ ": " ++ reference name))

def headerOf (source : File) : String :=
  ((Text.splitLast? '.' source.unixPath).map Prod.fst).getD source.unixPath ++ ".h.gch"

def headerRule (source : File) : Statement :=
  .rule (headerOf source) []
    ["$(CXX) $(CPPFLAGS) $(CXXFLAGS) -c " ++ source.unixPath ++ " -o " ++ headerOf source]

/-- Makes the directories and the precompiled header; the first source that creates one counts. -/
def prebuildRules (c : Configuration) (sources : List File) : List Statement :=
  let header? := sources.find? (·.precompiledHeader)
  .rule (c.ruleName ++ "Prebuild") (header?.map headerOf).toList
      ["mkdir -p " ++ directoryName c.intermediateDirectory,
        "mkdir -p " ++ directoryName c.outputDirectory] ::
    (header?.map headerRule).toList

def buildRuleName (c : Configuration) : String := c.ruleName ++ "Build"

def currentValues (c : Configuration) : List (String × String) :=
  [("OUTDIR", directoryName c.outputDirectory),
   ("INTDIR", directoryName c.intermediateDirectory),
   ("CXXFLAGS", joinFlags c.forcedIncludeFlags c.includeFlags),
   ("CFLAGS", c.includeFlags),
   ("CPPFLAGS", c.defineFlags),
   ("LDFLAGS", joinFlags c.libraryDirectoryFlags c.libraryFlags)]

def product? : ConfigurationType → Option (String × String)
  | .application =>
    some ("$(PROJECT_NAME)", "$(CXX) $(CPPFLAGS) $(CXXFLAGS) $(OBJS) $(LDFLAGS) -o $(TARGET)")
  | .dynamicLibrary =>
    some ("lib$(PROJECT_NAME).so",
      "$(CXX) -shared $(CPPFLAGS) $(CXXFLAGS) $(OBJS) $(LDFLAGS) -o $(TARGET)")
  | .staticLibrary => some ("lib$(PROJECT_NAME).a", "$(AR) $(ARFLAGS) $(TARGET) $(OBJS)")
  | .utility => none
  | .unknown => none

def targetRules (c : Configuration) : List Statement :=
  let build := buildRuleName c
  let stats := c.ruleName ++ "Stats"
  let objects := reference (objectsVariable c.ruleName)
  match product? c.type with
  | some (target, command) =>
    [.assignFor build "CURRENT_TARGET" target, .assignFor build "OBJS" objects,
      .rule build [stats, objects] [command]]
  | none => [.rule build [stats] []]

def buildRules (c : Configuration) : List Statement :=
  (currentValues c).map (fun entry =>
    .assignFor (buildRuleName c) ("CURRENT_" ++ entry.1) entry.2) ++ targetRules c

def mainRule (c : Configuration) : Statement :=
  .rule c.ruleName [c.ruleName ++ "Prebuild", buildRuleName c] []

def removeObjects (c : Configuration) : String :=
  "@rm -vf " ++ reference (objectsVariable c.ruleName)

def cleanRule (c : Configuration) : Statement :=
  .rule ("clean." ++ c.ruleName) [] [removeObjects c]

def rulesFor (c : Configuration) (sources : List File) : List Statement :=
  let objects := directoryName c.intermediateDirectory
  [.heading c.name, .assignWords (sourcesVariable c.ruleName) (sources.map File.unixPath), .blank,
    statsRule c, .blank] ++
  assignObjects c.ruleName objects ++ [.blank] ++
  spaced (objectRules objects sources) ++
  spaced (prebuildRules c sources) ++
  buildRules c ++ [.blank, mainRule c, .blank, cleanRule c, .blank]

/-- What looks at other statements than blank lines is found part by part. -/
theorem filterMap_rulesFor {α : Type} {f : Statement → Option α} (h : f .blank = none)
    (c : Configuration) (sources : List File) :
    (rulesFor c sources).filterMap f =
      [.heading c.name, .assignWords (sourcesVariable c.ruleName) (sources.map File.unixPath),
        statsRule c].filterMap f ++
      (assignObjects c.ruleName (directoryName c.intermediateDirectory)).filterMap f ++
      (objectRules (directoryName c.intermediateDirectory) sources).filterMap f ++
      (prebuildRules c sources).filterMap f ++ (buildRules c).filterMap f ++
      [mainRule c, cleanRule c].filterMap f := by
  have hskip : ∀ l, (Statement.blank :: l).filterMap f = l.filterMap f :=
    fun _ => List.filterMap_cons_none h
  have hbetween : ∀ a b d : Statement,
      [a, b, .blank, d, .blank].filterMap f = [a, b, d].filterMap f := by
    simp [List.filterMap_cons, h]
  simp only [rulesFor, List.filterMap_append, filterMap_spaced h, hbetween, hskip,
    List.filterMap_nil, List.append_nil]

def configurationRules (p : Project) (c : Configuration) : List Statement :=
  rulesFor c (p.sourcesOf c)

end StudioMake.Makefile
