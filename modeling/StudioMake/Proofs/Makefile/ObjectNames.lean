import StudioMake.Proofs.Makefile.Reading
import StudioMake.Proofs.Project.FileName

/-!
# Names of objects

The value that lists the objects for an extension, as it is expanded where the paths of the sources
are known: the paths with the extension are filtered out, their directories dropped, and each name
becomes that of an object. What is left are the objects of the sources with this extension.
-/

set_option autoImplicit false

namespace StudioMake.Makefile

section Files

variable {f : File} {extension : String}

theorem name_eq_of_extension? (h : f.extension? = some extension) :
    f.name = f.stem ++ ("." ++ extension) ∧ '.' ∉ extension.toList := by
  obtain ⟨⟨stem, e⟩, hs, rfl⟩ := Option.map_eq_some_iff.1 h
  have hstem : f.stem = stem := by simp [File.stem, hs]
  obtain ⟨hcut, -⟩ := Option.filter_eq_some_iff.1 hs
  obtain ⟨⟨a, b⟩, hab, he⟩ := Option.map_eq_some_iff.1 hcut
  cases he
  obtain ⟨hname, hdot⟩ := Text.eq_of_cutLast? hab
  refine ⟨?_, by simpa using hdot⟩
  rw [hstem, ← String.toList_inj, hname]
  simp

theorem extension?_ne_none_of_isSource (h : f.isSource = true) :
    f.extension? ≠ none := by
  intro hn
  simp [File.isSource, File.isC, File.isCpp, hn] at h

theorem name_ne_empty (h : f.extension? = some extension) : f.name ≠ "" := by
  rw [(name_eq_of_extension? h).1]
  simp

theorem fileName_unixPath (h : f.IsNamed) : fileName f.unixPath = f.name := by
  obtain ⟨directory, hs, hd⟩ := h.exists_directory
  rcases hd with rfl | hd
  · have hname : f.unixPath = f.name := String.toList_inj.1 hs
    have hc : Text.cutLast? '/' f.name.toList = none := Text.cutLast?_eq_none_iff.2 h.slash_notMem
    simp [fileName, Text.splitLast?, hname, hc]
  · obtain ⟨above, rfl⟩ := List.getLast?_eq_some_iff.1 hd
    have hc : Text.cutLast? '/' f.unixPath.toList = some (above, f.name.toList) := by
      rw [hs, List.append_assoc, List.singleton_append]
      exact Text.cutLast?_append h.slash_notMem above
    simp [fileName, Text.splitLast?, hc]

theorem isSome_patternStem?_unixPath (h : f.IsNamed) (he : f.extension? = some extension)
    {other : String} (hd : '.' ∉ other.toList) :
    (patternStem? ("", "." ++ other) f.unixPath).isSome = true ↔ extension = other := by
  obtain ⟨directory, hs, -⟩ := h.exists_directory
  obtain ⟨hname, hdot⟩ := name_eq_of_extension? he
  have hpath : f.unixPath.toList = directory ++ f.stem.toList ++ '.' :: extension.toList := by
    rw [hs, hname]
    simp
  rw [isSome_patternStem?_iff, String.toList_append]
  constructor
  · rintro ⟨before, hb⟩
    have hc : Text.cutLast? '.' f.unixPath.toList = some (before, other.toList) := by
      rw [← hb]
      exact Text.cutLast?_append hd before
    rw [hpath, Text.cutLast?_append hdot] at hc
    exact String.toList_inj.1 (congrArg Prod.snd (Option.some.inj hc))
  · rintro rfl
    exact ⟨_, hpath.symm⟩

theorem consists_name {p : Char → Bool} (h : f.IsNamed) (hp : Consists p f.unixPath) :
    Consists p f.name := by
  obtain ⟨directory, hs, -⟩ := h.exists_directory
  intro c hc
  apply hp c
  rw [hs]
  exact List.mem_append_right directory hc

theorem unixPath_ne_empty (h : f.IsNamed) (he : f.extension? = some extension) :
    f.unixPath ≠ "" := by
  obtain ⟨directory, hs, -⟩ := h.exists_directory
  have hn := name_ne_empty he
  intro hu
  simp_all

end Files

section Objects

/-- The object that is made from a file. -/
def objectOf (directory : String) (f : File) : String := directory ++ "/" ++ f.stem ++ ".o"

def withExtension (sources : List File) (extension : String) : List File :=
  sources.filter (·.extension? = some extension)

/-- The files that make can tell apart as words: each has an extension and a plain path that ends
in its name. -/
structure Readable (sources : List File) : Prop where
  isNamed : ∀ f ∈ sources, f.IsNamed
  extension_ne_none : ∀ f ∈ sources, f.extension? ≠ none
  plain : ∀ f ∈ sources, Consists isPlain f.unixPath

theorem objectNames_eq (rule directory extension : String) :
    objectNames rule directory extension =
      callText .patsubst ["%" ++ ("." ++ extension), directory ++ "/" ++ "%" ++ ".o",
        callText .notdir [callText .filter
          ["%" ++ ("." ++ extension), reference (sourcesVariable rule)]]] := by
  have ho : "$(patsubst %." = "$(" ++ "patsubst" ++ " " ++ "%" ++ "." := by decide
  have hm : "/%.o,$(notdir $(filter %." = "/" ++ "%" ++ ".o" ++ "," ++ "$(" ++ "notdir" ++ " " ++
      "$(" ++ "filter" ++ " " ++ "%" ++ "." := by decide
  have hc : ")))" = ")" ++ ")" ++ ")" := by decide
  unfold objectNames
  simp only [ho, hm, hc, callText, Function.name, String.intercalate_cons_cons,
    String.intercalate_singleton, String.append_assoc]

variable {v : OrderedMap String} {rule directory extension : String} {sources : List File}

theorem consists_ruleName (c : Configuration) :
    Consists Configuration.isTargetChar c.ruleName := by
  intro x hx
  rw [Configuration.ruleName, Configuration.targetName, String.toList_ofList] at hx
  exact (List.mem_filter.1 hx).2

theorem isVariable_sourcesVariable (hr : Consists Configuration.isTargetChar rule) :
    IsVariable (sourcesVariable rule) :=
  ⟨by simp [sourcesVariable], hr.append (by decide)⟩

theorem isVariable_objectsVariable (hr : Consists Configuration.isTargetChar rule) :
    IsVariable (objectsVariable rule) :=
  ⟨by simp [objectsVariable], hr.append (by decide)⟩

theorem Readable.exists_extension (hs : Readable sources) {f : File} (hf : f ∈ sources) :
    ∃ extension, f.extension? = some extension :=
  Option.ne_none_iff_exists'.1 (hs.extension_ne_none f hf)

theorem Readable.isWord_unixPath (hs : Readable sources) {f : File} (hf : f ∈ sources) :
    IsWord f.unixPath := by
  obtain ⟨e, he⟩ := hs.exists_extension hf
  exact (hs.plain f hf).literal.isWord (unixPath_ne_empty (hs.isNamed f hf) he)

theorem Readable.consists_name (hs : Readable sources) {f : File} (hf : f ∈ sources) :
    Consists isLiteral f.name :=
  (Makefile.consists_name (hs.isNamed f hf) (hs.plain f hf)).literal

theorem Readable.isWord_name (hs : Readable sources) {f : File} (hf : f ∈ sources) :
    IsWord f.name := by
  obtain ⟨e, he⟩ := hs.exists_extension hf
  exact (hs.consists_name hf).isWord (name_ne_empty he)

theorem Readable.withExtension (hs : Readable sources) (extension : String) :
    Readable (withExtension sources extension) :=
  ⟨fun f hf => hs.isNamed f (List.mem_filter.1 hf).1,
    fun f hf => hs.extension_ne_none f (List.mem_filter.1 hf).1,
    fun f hf => hs.plain f (List.mem_filter.1 hf).1⟩

theorem apply_filter_paths (hs : Readable sources) {text : String}
    (ht : words text = sources.map File.unixPath) (he : Consists isLiteral extension)
    (hn : '.' ∉ extension.toList) :
    Function.filter.apply ["%" ++ ("." ++ extension), text] =
      some (unwords ((withExtension sources extension).map File.unixPath)) := by
  have htail : Consists isLiteral ("." ++ extension) := Consists.append (by decide) he
  rw [apply_filter htail, ht, List.filter_map]
  refine congrArg (fun l => some (unwords (l.map File.unixPath))) (List.filter_congr ?_)
  intro f hf
  obtain ⟨e, hfe⟩ := hs.exists_extension hf
  rw [Bool.eq_iff_iff, Function.comp_apply,
    isSome_patternStem?_unixPath (hs.isNamed f hf) hfe hn, decide_eq_true_iff, hfe,
    Option.some.injEq]

theorem apply_notdir_paths (hs : Readable sources) :
    Function.notdir.apply [unwords (sources.map File.unixPath)] =
      some (unwords (sources.map File.name)) := by
  have hw : ∀ w ∈ sources.map File.unixPath, IsWord w := by
    intro w hw
    obtain ⟨f, hf, rfl⟩ := List.mem_map.1 hw
    exact hs.isWord_unixPath hf
  have hnames : (sources.map File.unixPath).map fileName = sources.map File.name := by
    rw [List.map_map]
    refine List.map_congr_left fun f hf => ?_
    rw [Function.comp_apply, fileName_unixPath (hs.isNamed f hf)]
  rw [apply_notdir, words_unwords hw, hnames]

theorem apply_patsubst_names (hs : Readable sources) (hd : Consists isPlain directory)
    (he : ∀ f ∈ sources, f.extension? = some extension) :
    Function.patsubst.apply ["%" ++ ("." ++ extension), directory ++ "/" ++ "%" ++ ".o",
      unwords (sources.map File.name)] = some (unwords (sources.map (objectOf directory))) := by
  have hw : ∀ w ∈ sources.map File.name, IsWord w := by
    intro w hw
    obtain ⟨f, hf, rfl⟩ := List.mem_map.1 hw
    exact hs.isWord_name hf
  have hpercent : '%' ∉ (directory ++ "/").toList := by
    simpa using hd.notMem (by decide)
  rw [apply_patsubst, words_unwords hw, List.map_map]
  refine congrArg (fun l => some (unwords l)) (List.map_congr_left fun f hf => ?_)
  obtain ⟨hname, -⟩ := name_eq_of_extension? (he f hf)
  rw [Function.comp_apply, hname, patternStem?_append, Option.map_some, Option.getD_some,
    replacePercent_append hpercent, objectOf]

theorem Readable.isWord_objects (hs : Readable sources) (hd : Consists isPlain directory)
    (extension : String) :
    ∀ w ∈ (Makefile.withExtension sources extension).map (objectOf directory), IsWord w := by
  intro w hw
  obtain ⟨f, hf, rfl⟩ := List.mem_map.1 hw
  obtain ⟨hf, he⟩ := List.mem_filter.1 hf
  obtain ⟨hname, -⟩ := name_eq_of_extension? (of_decide_eq_true he)
  have hstem : Consists isLiteral f.stem :=
    (Consists.append_iff.1 (hname ▸ hs.consists_name hf)).1
  have hobject : Consists isLiteral (objectOf directory f) :=
    ((hd.literal.append (by decide)).append hstem).append (by decide)
  exact hobject.isWord (by simp [objectOf])

theorem expands_objectNames (hr : Consists Configuration.isTargetChar rule)
    (hd : Consists isPlain directory) (hs : Readable sources)
    (hv : listOf v (sourcesVariable rule) = sources.map File.unixPath)
    (he : Consists isLiteral extension) (hn : '.' ∉ extension.toList) :
    Expands v (objectNames rule directory extension)
      (unwords ((withExtension sources extension).map (objectOf directory))) := by
  have hpattern : Consists isLiteral ("%" ++ ("." ++ extension)) :=
    Consists.append (by decide) (Consists.append (by decide) he)
  have hreplacement : Consists isLiteral (directory ++ "/" ++ "%" ++ ".o") :=
    ((hd.literal.append (by decide)).append (by decide)).append (by decide)
  have hreference :
      Expands v (reference (sourcesVariable rule)) (valueOf v (sourcesVariable rule)) :=
    Expands.reference (isVariable_sourcesVariable hr).consists
  have hchosen := hs.withExtension extension
  have hext : ∀ f ∈ withExtension sources extension, f.extension? = some extension :=
    fun f hf => of_decide_eq_true (List.mem_filter.1 hf).2
  have hfilter := Expands.call (.cons (.literal hpattern) (.cons hreference .nil)) rfl
    (apply_filter_paths hs hv he hn)
  have hnotdir := Expands.call (.cons hfilter .nil) rfl (apply_notdir_paths hchosen)
  rw [objectNames_eq]
  exact Expands.call
    (.cons (.literal hpattern) (.cons (.literal hreplacement) (.cons hnotdir .nil)))
    rfl (apply_patsubst_names hchosen hd hext)

end Objects

end StudioMake.Makefile
