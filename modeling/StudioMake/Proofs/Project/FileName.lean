import StudioMake.Project.Load
import StudioMake.Proofs.MSBuild.FileLinking
import StudioMake.Proofs.VisualStudio.FilePartition

/-!
# Names of files

A file is named after the last segment of its path, whatever format the project is read from. The
name is what follows the last slash of the path as a makefile writes it.
-/

set_option autoImplicit false

namespace StudioMake

/-- A file that has the name its path gives it. -/
def File.IsNamed (f : File) : Prop := f.name = Path.displayName f.relativePath

instance : DecidablePred File.IsNamed := fun f =>
  inferInstanceAs (Decidable (f.name = Path.displayName f.relativePath))

theorem File.stem_subset_name (f : File) : f.stem.toList ⊆ f.name.toList := by
  unfold stem
  cases hs : Text.splitExtension? f.name with
  | none => exact fun _ hc => hc
  | some parts =>
    obtain ⟨hcut, -⟩ := Option.filter_eq_some_iff.1 hs
    obtain ⟨⟨a, b⟩, hab, rfl⟩ := Option.map_eq_some_iff.1 hcut
    rw [(Text.eq_of_cutLast? hab).1]
    simp

section Paths

def IsDirectory (l : List Char) : Prop := l = [] ∨ l.getLast? = some '/'

theorem isSeparator_of_mem_displayName {path : String} {c : Char}
    (h : c ∈ (Path.displayName path).toList) : Path.isSeparator c = false := by
  rw [Path.displayName, String.toList_ofList, List.mem_reverse] at h
  simpa using List.all_eq_true.1 List.all_takeWhile c h

theorem slash_notMem_displayName (path : String) : '/' ∉ (Path.displayName path).toList :=
  fun h => absurd (isSeparator_of_mem_displayName h) (by decide)

theorem exists_directory_slashes (path : String) :
    ∃ directory, (Path.slashes path).toList = directory ++ (Path.displayName path).toList ∧
      IsDirectory directory := by
  let p : Char → Bool := fun c => !Path.isSeparator c
  let slash : Char → Char := fun c => if c = '\\' then '/' else c
  have hname : (Path.displayName path).toList.map slash = (Path.displayName path).toList := by
    refine (List.map_congr_left fun c hc => ?_).trans (List.map_id' _)
    have hs := isSeparator_of_mem_displayName hc
    have hb : c ≠ '\\' := by
      rintro rfl
      cases hs
    simp [slash, hb]
  refine ⟨((path.toList.reverse.dropWhile p).reverse).map slash, ?_, ?_⟩
  · have hsplit : path.toList =
        (path.toList.reverse.dropWhile p).reverse ++ (Path.displayName path).toList := by
      rw [Path.displayName, String.toList_ofList, ← List.reverse_append,
        List.takeWhile_append_dropWhile, List.reverse_reverse]
    rw [Path.slashes, String.toList_ofList]
    conv_lhs => rw [hsplit]
    rw [List.map_append, hname]
  · cases hd : path.toList.reverse.dropWhile p with
    | nil => exact .inl rfl
    | cons c rest =>
      have hc : p c = false := by
        have := List.head?_dropWhile_not p path.toList.reverse
        rw [hd] at this
        simpa using this
      have hs : slash c = '/' := by
        simp only [p, Bool.not_eq_false', Path.isSeparator, Bool.or_eq_true, beq_iff_eq] at hc
        rcases hc with rfl | rfl <;> decide
      right
      simp [hs]

/-- Every path is a directory followed by the name of the file; a leading `./` belongs to the
directory. -/
theorem exists_directory_toUnix (path : String) :
    ∃ directory, (Path.toUnix path).toList = directory ++ (Path.displayName path).toList ∧
      IsDirectory directory := by
  obtain ⟨directory, hs, hd⟩ := exists_directory_slashes path
  unfold Path.toUnix Text.dropLead?
  split
  · next hp =>
    have hn := slash_notMem_displayName path
    obtain ⟨rest, hr⟩ := List.isPrefixOf_iff_prefix.1 hp
    rw [hs] at hr
    simp only [Option.getD_some, String.toList_ofList, hs]
    match directory, hd with
    | [], _ =>
      simp only [List.nil_append] at hr
      exact absurd (hr ▸ by simp) hn
    | [x], hd =>
      obtain rfl : x = '/' := by simpa [IsDirectory] using hd
      simp at hr
    | x :: y :: below, hd =>
      refine ⟨below, by simp, ?_⟩
      cases below with
      | nil => exact .inl rfl
      | cons z below => exact .inr (by simpa [IsDirectory] using hd)
  · exact ⟨directory, hs, hd⟩

namespace File.IsNamed

variable {f : File}

theorem exists_directory (h : f.IsNamed) :
    ∃ directory, f.unixPath.toList = directory ++ f.name.toList ∧ IsDirectory directory := by
  rw [h]
  exact exists_directory_toUnix f.relativePath

theorem slash_notMem (h : f.IsNamed) : '/' ∉ f.name.toList := by
  rw [h]
  exact slash_notMem_displayName f.relativePath

end File.IsNamed

end Paths

section Loading

variable {fs : FileSystem} {l : Location} {macros : MacroTable} {root : Xml.Element} {p : Project}

namespace VisualStudio

theorem isNamed_readFile (directory : String) (configurations : List Configuration)
    (filter : Option String) (e : Xml.Element) :
    (readFile directory configurations filter e).file.IsNamed := by
  have hu := unrecorded_readFile directory configurations filter e
  have hname := congrArg File.name hu
  have hpath := congrArg File.relativePath hu
  exact hname.trans (congrArg Path.displayName hpath.symm)

theorem isNamed_of_readProject (h : readProject fs l macros root = .ok p) :
    ∀ f ∈ p.files, f.IsNamed := by
  obtain ⟨base, hb, -, -, rfl | ⟨e, rfl⟩⟩ := exists_base_of_readProject h
  · simp [hb]
  · intro f hf
    simp only [addFiles, readFiles, List.map_map, List.mem_map] at hf
    obtain ⟨⟨filter, e⟩, -, rfl⟩ := hf
    exact isNamed_readFile _ _ filter e

end VisualStudio

namespace MSBuild

theorem isNamed_linkItem {evaluations : List Evaluation} {directory : String} {item : FileItem}
    {linked : List LinkedFile} (h : linkItem fs directory evaluations item = .ok linked) :
    ∀ lf ∈ linked, lf.file.IsNamed := by
  obtain ⟨built, -, h⟩ := bind_eq_ok_iff.1 h
  cases h
  intro lf hm
  obtain ⟨path, -, rfl⟩ := List.mem_map.1 hm
  rfl

theorem isNamed_linkItems {evaluations : List Evaluation} {directory : String}
    {items : List FileItem} {linked : List LinkedFile}
    (h : linkItems fs directory evaluations items = .ok linked) :
    ∀ lf ∈ linked, lf.file.IsNamed := by
  obtain ⟨groups, hg, rfl⟩ := map_eq_ok_iff.1 h
  clear h
  induction mapM_eq_ok_iff.1 hg with
  | nil => simp
  | cons hitem hrest ih =>
    simp only [List.flatten_cons, List.mem_append]
    rintro lf (hm | hm)
    · exact isNamed_linkItem hitem lf hm
    · exact ih (mapM_eq_ok_iff.2 hrest) lf hm

theorem isNamed_of_readProject (h : readProject fs l macros root = .ok p) :
    ∀ f ∈ p.files, f.IsNamed := by
  obtain ⟨-, -, evaluations, linked, -, hl, rfl⟩ := readProject_eq_ok_iff.1 h
  intro f hf
  have hu : unsorted f ∈ (linked.map LinkedFile.file).map unsorted := by
    rw [← map_unsorted_sortFiles fs l]
    exact List.mem_map_of_mem hf
  obtain ⟨g, hg, hs⟩ := List.mem_map.1 hu
  obtain ⟨lf, hlf, rfl⟩ := List.mem_map.1 hg
  have hn := isNamed_linkItems hl lf hlf
  have hname : lf.file.name = f.name := show (unsorted lf.file).name = (unsorted f).name by rw [hs]
  have hpath : lf.file.relativePath = f.relativePath :=
    show (unsorted lf.file).relativePath = (unsorted f).relativePath by rw [hs]
  rwa [File.IsNamed, hname, hpath] at hn

end MSBuild

/-- Every file of a project that is read has the name its path gives it. -/
theorem isNamed_of_ofText {seeds : Seeds} {path source : String}
    (h : Project.ofText fs seeds path source = .ok p) : ∀ f ∈ p.files, f.IsNamed := by
  obtain ⟨l, macros, root, q, rfl, hq⟩ := Project.exists_readProject_of_ofText h
  have hn : ∀ f ∈ q.files, f.IsNamed := by
    rcases hq with hq | hq
    · exact VisualStudio.isNamed_of_readProject hq
    · exact MSBuild.isNamed_of_readProject hq
  unfold Project.warnIfNoFiles
  split <;> exact hn

end Loading

end StudioMake
