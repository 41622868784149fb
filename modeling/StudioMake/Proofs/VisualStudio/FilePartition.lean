import StudioMake.Proofs.Sequences
import StudioMake.VisualStudio.Document

/-!
# Files and configurations partition each other

While the records of a file are read, the names that it excludes and the flags of the
configurations that build it are updated apart from each other. Here the two are shown to agree
after every record, and hence for every file of a loaded project: a configuration lists exactly
the files that do not exclude its name, each once and in order.
-/

set_option autoImplicit false

namespace StudioMake

theorem File.isExcludedFrom_excludeFrom (f : File) (name other : String) :
    (f.excludeFrom name).isExcludedFrom other =
      (f.isExcludedFrom other || decide (other = name)) := by
  unfold excludeFrom
  split
  · next h =>
    by_cases ho : other = name
    · subst ho
      simp [h]
    · simp [ho]
  · simp [isExcludedFrom]

theorem File.nodup_excludeFrom {f : File} (h : f.excluded.Nodup) (name : String) :
    (f.excludeFrom name).excluded.Nodup := by
  unfold excludeFrom
  split
  · exact h
  · next hn =>
    have hm : name ∉ f.excluded := by simpa [isExcludedFrom] using hn
    exact h.append (List.nodup_singleton name) (by simpa using hm)

namespace VisualStudio

open Xml

/-- What every record keeps true of a file: for each of the names of the configurations the flag
says whether the name is excluded, and no name is excluded twice. -/
structure LinkedFile.Agrees (names : List String) (l : LinkedFile) : Prop where
  built_eq : l.built = names.map fun name => !l.file.isExcludedFrom name
  nodup : l.file.excluded.Nodup

namespace LinkedFile

variable {configurations : List Configuration} {l : LinkedFile}

theorem Agrees.exclude (h : l.Agrees (configurations.map Configuration.name)) (name : String) :
    (l.exclude configurations name).Agrees (configurations.map Configuration.name) := by
  constructor
  · have hb := h.built_eq
    simp only [LinkedFile.exclude, hb, List.map_map, List.zipWith_map_left, List.zipWith_self,
      File.isExcludedFrom_excludeFrom]
    apply List.map_congr_left
    intro c _
    by_cases hc : c.name = name <;> simp [hc]
  · exact File.nodup_excludeFrom h.nodup name

theorem Agrees.addTools {names : List String} (h : l.Agrees names) (tools : List Element) :
    (tools.foldl addTool l).Agrees names := by
  induction tools generalizing l with
  | nil => exact h
  | cons tool rest ih => exact ih ⟨h.built_eq, h.nodup⟩

theorem Agrees.addRecord (h : l.Agrees (configurations.map Configuration.name))
    (record : Element) :
    (l.addRecord configurations record).Agrees (configurations.map Configuration.name) := by
  unfold LinkedFile.addRecord
  apply Agrees.addTools
  split
  · exact h.exclude _
  · exact h

theorem Agrees.addRecords (h : l.Agrees (configurations.map Configuration.name))
    (records : List Element) :
    (records.foldl (LinkedFile.addRecord configurations) l).Agrees
      (configurations.map Configuration.name) := by
  induction records generalizing l with
  | nil => exact h
  | cons record rest ih => exact ih (h.addRecord record)

end LinkedFile

theorem agrees_startFile (directory : String) (configurations : List Configuration)
    (filter : Option String) (e : Element) :
    (startFile directory configurations filter e).Agrees
      (configurations.map Configuration.name) := by
  constructor
  · simp [startFile, File.isExcludedFrom]
  · simp [startFile]

theorem agrees_readFile (directory : String) (configurations : List Configuration)
    (filter : Option String) (e : Element) :
    (readFile directory configurations filter e).Agrees (configurations.map Configuration.name) :=
  (agrees_startFile directory configurations filter e).addRecords _

theorem agrees_of_mem_readFiles {directory : String} {configurations : List Configuration}
    {listed : List (Option String × Element)} {l : LinkedFile}
    (h : l ∈ readFiles directory configurations listed) :
    l.Agrees (configurations.map Configuration.name) := by
  obtain ⟨⟨filter, e⟩, _, rfl⟩ := List.mem_map.1 h
  exact agrees_readFile directory configurations filter e

def unrecorded (f : File) : File :=
  { f with excluded := [], precompiledHeader := false, compileAsC := false }

theorem unrecorded_addRecord (configurations : List Configuration) (l : LinkedFile)
    (record : Element) :
    unrecorded (l.addRecord configurations record).file = unrecorded l.file := by
  have htools : ∀ (tools : List Element) (l : LinkedFile),
      unrecorded (tools.foldl LinkedFile.addTool l).file = unrecorded l.file := by
    intro tools
    induction tools with
    | nil => exact fun _ => rfl
    | cons tool rest ih => exact fun l => ih _
  rw [LinkedFile.addRecord, htools]
  split
  · unfold LinkedFile.exclude File.excludeFrom
    split <;> rfl
  · rfl

theorem unrecorded_readFile (directory : String) (configurations : List Configuration)
    (filter : Option String) (e : Element) :
    unrecorded (readFile directory configurations filter e).file =
      unrecorded (startFile directory configurations filter e).file := by
  have hrecords : ∀ (records : List Element) (l : LinkedFile),
      unrecorded (records.foldl (LinkedFile.addRecord configurations) l).file =
        unrecorded l.file := by
    intro records
    induction records with
    | nil => exact fun _ => rfl
    | cons record rest ih => exact fun l => (ih _).trans (unrecorded_addRecord _ l record)
  exact hrecords _ _

def builtIndices (n : Nat) (name : String) (files : List File) : List Nat :=
  ((files.zipIdx n).filter fun item => !item.1.isExcludedFrom name).map Prod.snd

theorem builtIndices_cons (n : Nat) (name : String) (f : File) (files : List File) :
    builtIndices n name (f :: files) =
      (if f.isExcludedFrom name then [] else [n]) ++ builtIndices (n + 1) name files := by
  cases h : f.isExcludedFrom name <;> simp [builtIndices, h]

theorem mem_builtIndices {n i : Nat} {name : String} {files : List File} :
    i ∈ builtIndices n name files ↔
      n ≤ i ∧ ∃ f, files[i - n]? = some f ∧ name ∉ f.excluded := by
  rw [builtIndices, mem_indices_iff (p := fun f : File => !f.isExcludedFrom name)]
  simp [File.isExcludedFrom]

theorem pairwise_builtIndices (n : Nat) (name : String) (files : List File) :
    (builtIndices n name files).Pairwise (· < ·) :=
  pairwise_indices _ files n

theorem length_builtIndices (n : Nat) (name : String) (files : List File) :
    (builtIndices n name files).length + files.countP (fun f => name ∈ f.excluded) =
      files.length := by
  induction files generalizing n with
  | nil => simp [builtIndices]
  | cons f files ih =>
    have hr := ih (n + 1)
    rw [builtIndices_cons, List.countP_cons, List.length_append, List.length_cons]
    by_cases hm : name ∈ f.excluded
    · simp only [File.isExcludedFrom, List.contains_iff_mem, hm, decide_true, if_true,
        List.length_nil]
      omega
    · simp only [File.isExcludedFrom, List.contains_iff_mem, hm, decide_false, if_false,
        List.length_singleton, Bool.false_eq_true]
      omega

theorem attachFile_of_agrees (n : Nat) {configurations : List Configuration} {l : LinkedFile}
    (h : l.Agrees (configurations.map Configuration.name)) :
    attachFile n l.built configurations = configurations.map fun c =>
      { c with files := c.files ++ if l.file.isExcludedFrom c.name then [] else [n] } := by
  have hb := h.built_eq
  simp only [attachFile, hb, List.map_map, List.zipWith_map_left, List.zipWith_self]
  apply List.map_congr_left
  intro c _
  cases he : l.file.isExcludedFrom c.name <;> simp [he]

/-- Attaching files one by one through their flags gives each configuration the indices of the
files that do not exclude its name, after those that it has. -/
theorem attachFiles_of_agrees (n : Nat) {files : List LinkedFile}
    {configurations : List Configuration}
    (h : ∀ l ∈ files, l.Agrees (configurations.map Configuration.name)) :
    attachFiles n files configurations = configurations.map fun c =>
      { c with files := c.files ++ builtIndices n c.name (files.map LinkedFile.file) } := by
  induction files generalizing n configurations with
  | nil => simp [attachFiles, builtIndices]
  | cons l rest ih =>
    have hl := h l List.mem_cons_self
    have hr : ∀ k ∈ rest, k.Agrees
        ((attachFile n l.built configurations).map Configuration.name) := by
      intro k hk
      rw [attachFile_of_agrees n hl, List.map_map]
      exact h k (List.mem_cons_of_mem l hk)
    rw [attachFiles, ih (n + 1) hr, attachFile_of_agrees n hl, List.map_map]
    apply List.map_congr_left
    intro c _
    simp [builtIndices_cons]

theorem files_of_mem_readConfigurations {fs : FileSystem} {directory : String}
    {macros : MacroTable} {es : List Element} {c : Configuration}
    (h : c ∈ readConfigurations fs directory macros es) : c.files = [] := by
  induction es generalizing macros with
  | nil => simp [readConfigurations] at h
  | cons e rest ih =>
    rcases List.mem_cons.1 h with rfl | hr
    · rfl
    · exact ih hr

theorem addFiles_eq {p : Project} (h : ∀ c ∈ p.configurations, c.files = []) (e : Element) :
    (addFiles p e).configurations = p.configurations.map (fun c =>
      { c with files := builtIndices 0 c.name (addFiles p e).files }) ∧
    ∀ f ∈ (addFiles p e).files, f.excluded.Nodup := by
  unfold addFiles
  simp only
  constructor
  · rw [attachFiles_of_agrees 0 fun l hl => agrees_of_mem_readFiles hl]
    apply List.map_congr_left
    intro c hc
    simp [h c hc]
  · intro f hf
    obtain ⟨l, hl, rfl⟩ := List.mem_map.1 hf
    exact (agrees_of_mem_readFiles hl).nodup

/-- How the files of a project are divided up: no file excludes a name twice, and every
configuration lists the files that do not exclude its name. -/
structure Divided (p : Project) : Prop where
  nodup : ∀ f ∈ p.files, f.excluded.Nodup
  files_eq : ∀ c ∈ p.configurations, c.files = builtIndices 0 c.name p.files

theorem divided_addFiles {p : Project} (h : ∀ c ∈ p.configurations, c.files = [])
    (e : Element) : Divided (addFiles p e) := by
  obtain ⟨hc, hn⟩ := addFiles_eq h e
  refine ⟨hn, ?_⟩
  intro c hm
  rw [hc] at hm
  obtain ⟨d, _, rfl⟩ := List.mem_map.1 hm
  rfl

theorem divided_of_files_eq_nil {p : Project} (hf : p.files = [])
    (h : ∀ c ∈ p.configurations, c.files = []) : Divided p := by
  constructor
  · simp [hf]
  · intro c hc
    rw [h c hc, hf]
    rfl

theorem exists_base_of_readProject {fs : FileSystem} {l : Location} {macros : MacroTable}
    {root : Element} {p : Project} (h : readProject fs l macros root = .ok p) :
    ∃ base : Project, base.files = [] ∧ base.filters = [] ∧
      (∀ c ∈ base.configurations, c.files = []) ∧ (p = base ∨ ∃ e, p = addFiles base e) := by
  unfold readProject at h
  split at h
  · simp only at h
    split at h
    · cases h
    · cases h
      cases root.childNamed? "Files" with
      | none =>
        refine ⟨_, ?_, ?_, ?_, .inl rfl⟩
        · rfl
        · rfl
        · exact fun c hc => files_of_mem_readConfigurations hc
      | some e =>
        refine ⟨_, ?_, ?_, ?_, .inr ⟨e, rfl⟩⟩
        · rfl
        · rfl
        · exact fun c hc => files_of_mem_readConfigurations hc
  · cases h

theorem divided_of_readProject {fs : FileSystem} {l : Location} {macros : MacroTable}
    {root : Element} {p : Project} (h : readProject fs l macros root = .ok p) : Divided p := by
  obtain ⟨base, hf, -, hc, rfl | ⟨e, rfl⟩⟩ := exists_base_of_readProject h
  · exact divided_of_files_eq_nil hf hc
  · exact divided_addFiles hc e

/-- In every project that a document describes, a configuration lists a file exactly if the file
does not exclude its name. It lists files of the project only, in order and each once; and the
files that it lists and those that exclude it are all files of the project together. -/
theorem files_partition {fs : FileSystem} {l : Location} {macros : MacroTable}
    {root : Element} {p : Project} (h : readProject fs l macros root = .ok p) :
    (∀ f ∈ p.files, f.excluded.Nodup) ∧
    ∀ c ∈ p.configurations,
      (∀ i f, p.files[i]? = some f → (i ∈ c.files ↔ c.name ∉ f.excluded)) ∧
      (∀ i ∈ c.files, i < p.files.length) ∧
      c.files.Pairwise (· < ·) ∧
      c.files.length + p.files.countP (fun f => c.name ∈ f.excluded) = p.files.length := by
  have hp := divided_of_readProject h
  refine ⟨hp.nodup, ?_⟩
  intro c hc
  rw [hp.files_eq c hc]
  refine ⟨?_, ?_, pairwise_builtIndices 0 c.name p.files, length_builtIndices 0 c.name p.files⟩
  · intro i f hf
    rw [mem_builtIndices]
    simp [hf]
  · intro i hi
    obtain ⟨-, f, hf, -⟩ := mem_builtIndices.1 hi
    exact (List.getElem?_eq_some_iff.1 hf).1

def twinConfigurations : Element :=
  { name := "VisualStudioProject"
    attributes := [("Name", "App")]
    children :=
      [{ name := "Configurations"
         children :=
          [{ name := "Configuration", attributes := [("Name", "Debug|Win32")] },
           { name := "Configuration", attributes := [("Name", "Release|Win32")] },
           { name := "Configuration", attributes := [("Name", "Debug|Win32")] }] },
       { name := "Files"
         children :=
          [{ name := "Filter"
             attributes := [("Name", "Source")]
             children :=
              [{ name := "File"
                 attributes := [("RelativePath", "a.cc")]
                 children :=
                  [record "Debug|Win32" "true", record "Debug|x64" "",
                    record "Debug|Win32" "1"] }] },
           { name := "File"
             attributes := [("RelativePath", "b.cc")]
             children := [record "Debug|Win32" " FALSE "] }] }] }
where
  record (name excluded : String) : Element :=
    { name := "FileConfiguration"
      attributes := [("Name", name), ("ExcludedFromBuild", excluded)] }

theorem files_partition_twins :
    ∃ p, readProject {} (.ofPath "/work" "App.vcproj") ⟨∅⟩ twinConfigurations = .ok p ∧
      p.files.map File.excluded = [["Debug|Win32", "Debug|x64"], []] ∧
      p.configurations.map Configuration.files = [[1], [0, 1], [1]] ∧
      ∀ c ∈ p.configurations, c.files.Pairwise (· < ·) ∧
        c.files.length + p.files.countP (fun f => c.name ∈ f.excluded) = p.files.length := by
  have h : readProject {} (.ofPath "/work" "App.vcproj") ⟨∅⟩ twinConfigurations = .ok _ := rfl
  refine ⟨_, h, by decide +kernel, by decide +kernel, ?_⟩
  intro c hc
  exact ((files_partition h).2 c hc).2.2

end VisualStudio

end StudioMake
