import StudioMake.Proofs.MSBuild.FileLinking
import StudioMake.Proofs.MSBuild.FilterPaths
import StudioMake.Proofs.Project.SourceText

/-!
# Files in the tree of filters

The document beside a project is gone through item by item, and each item finds or adds the filters
along a path. Here the tree that comes of it is read off the items: which filters there are, what
each of them says and holds, and how the name of a file's filter goes with its place in the tree.
-/

set_option autoImplicit false

namespace StudioMake.MSBuild

open StudioMake.Filter Xml

/-- What an item tells of the filters. -/
inductive Entry where
  | filter (path : String) (extensions : Option String)
  | file (path : String) (index : Nat)

namespace Entry

def ofItem? (files : List File) (item : Element) : Option Entry :=
  match item.attribute? "Include" with
  | none => none
  | some path =>
    if item.name = "Filter" then some (.filter path (childText? item "Extensions"))
    else
      match childText? item "Filter", Sorting.indexOf? files path with
      | some folder, some index => some (.file folder index)
      | _, _ => none

def names : Entry → List String
  | .filter path _ => pathNames path
  | .file path _ => pathNames path

def index? : Entry → Option Nat
  | .filter _ _ => none
  | .file _ index => some index

def indexAt? (path : List String) : Entry → Option Nat
  | .filter _ _ => none
  | .file folder index => if pathNames folder = path then some index else none

def extensionsAt? (path : List String) : Entry → Option (Option String)
  | .filter folder extensions => if pathNames folder = path then some extensions else none
  | .file _ _ => none

/-- The path at which a file is put. -/
def folderOf? (i : Nat) : Entry → Option String
  | .filter _ _ => none
  | .file folder index => if index = i then some folder else none

def change (g : Filter) : Entry → Filter
  | .filter _ extensions => { g with extensions }
  | .file _ index => { g with files := g.files ++ [index] }

def enter (filters : List Filter) (e : Entry) : List Filter :=
  alterFilterAt (e.change ·) e.names filters

def mark (files : List File) : Entry → List File
  | .filter _ _ => files
  | .file folder index => Sorting.setFilter files index (Sorting.lastName folder)

end Entry

/-- The entries of an item. A filter item declares the filter that it includes. Any other one puts
the last of the files with the path that it includes, up to letter case, into its folder. -/
inductive Tells (files : List File) (item : Element) : Entry → Prop
  | filter {path : String} (hname : item.name = "Filter")
      (hpath : item.attribute? "Include" = some path) :
      Tells files item (.filter path (childText? item "Extensions"))
  | file {path folder : String} {index : Nat} {f : File} (hname : item.name ≠ "Filter")
      (hpath : item.attribute? "Include" = some path)
      (hfolder : childText? item "Filter" = some folder) (hfile : files[index]? = some f)
      (hsame : Text.sameIgnoringCase f.relativePath path = true)
      (hlast : ∀ i g, files[i]? = some g → Text.sameIgnoringCase g.relativePath path = true →
        i ≤ index) :
      Tells files item (.file folder index)

section Items

variable {files files' : List File} {path : String}

/-- A path is looked for among all files, and the last one that has it is taken. -/
theorem indexOf?_eq_some_iff_last {index : Nat} : Sorting.indexOf? files path = some index ↔
    (∃ f, files[index]? = some f ∧ Text.sameIgnoringCase f.relativePath path = true) ∧
      ∀ i g, files[i]? = some g → Text.sameIgnoringCase g.relativePath path = true →
        i ≤ index := by
  have hmem :=
    @mem_indices_iff _ (fun f : File => Text.sameIgnoringCase f.relativePath path) files 0
  simp only [Nat.zero_le, true_and, Nat.sub_zero] at hmem
  rw [Sorting.indexOf?, getLast?_eq_some_iff_of_pairwise (pairwise_indices _ files 0)]
  simp only [hmem]
  exact and_congr_right fun _ =>
    ⟨fun h i g hg hp => h i ⟨g, hg, hp⟩, fun h i ⟨g, hg, hp⟩ => h i g hg hp⟩

theorem ofItem?_eq_some_iff {item : Element} {e : Entry} :
    Entry.ofItem? files item = some e ↔ Tells files item e := by
  unfold Entry.ofItem?
  constructor
  · intro h
    cases hi : item.attribute? "Include" with
    | none =>
      rw [hi] at h
      cases h
    | some path =>
      rw [hi] at h
      by_cases hn : item.name = "Filter"
      · simp only [hn, if_true, Option.some.injEq] at h
        exact h ▸ .filter hn hi
      · simp only [hn, if_false] at h
        split at h
        · next folder index hf hx =>
          obtain ⟨⟨f, hfile, hsame⟩, hlast⟩ := indexOf?_eq_some_iff_last.1 hx
          exact Option.some.inj h ▸ .file hn hi hf hfile hsame hlast
        · cases h
  · rintro (⟨hn, hi⟩ | ⟨hn, hi, hf, hfile, hsame, hlast⟩)
    · simp [hi, hn]
    · simp [hi, hn, hf, indexOf?_eq_some_iff_last.2 ⟨⟨_, hfile, hsame⟩, hlast⟩]

theorem map_relativePath_eq (h : files.map unsorted = files'.map unsorted) :
    files.map File.relativePath = files'.map File.relativePath := by
  have hr : File.relativePath = File.relativePath ∘ unsorted := rfl
  rw [hr, ← List.map_map, h, List.map_map]

theorem ofItem?_eq (h : files.map File.relativePath = files'.map File.relativePath)
    (item : Element) : Entry.ofItem? files item = Entry.ofItem? files' item := by
  simp only [Entry.ofItem?, indexOf?_eq_of_relativePath h]

theorem add_eq (s : Sorting) (item : Element) : s.add item =
    match Entry.ofItem? s.files item with
    | none => s
    | some e => { files := e.mark s.files, filters := e.enter s.filters } := by
  unfold Sorting.add Entry.ofItem?
  cases item.attribute? "Include" with
  | none => rfl
  | some path =>
    by_cases hn : item.name = "Filter"
    · simp only [hn, if_true, Entry.mark, Entry.enter, Entry.names, filterSegments_eq]
      rfl
    · simp only [hn, if_false, filterSegments_eq]
      cases childText? item "Filter" with
      | none => rfl
      | some folder =>
        cases Sorting.indexOf? s.files path with
        | none => rfl
        | some index => rfl

theorem foldl_add_eq (items : List Element) (s : Sorting)
    (h : s.files.map File.relativePath = files.map File.relativePath) :
    items.foldl Sorting.add s =
      { files := (items.filterMap (Entry.ofItem? files)).foldl Entry.mark s.files
        filters := (items.filterMap (Entry.ofItem? files)).foldl Entry.enter s.filters } := by
  induction items generalizing s with
  | nil => rfl
  | cons item rest ih =>
    have hadd : (s.add item).files.map File.relativePath = files.map File.relativePath := by
      rw [← h]
      exact map_relativePath_eq (map_unsorted_add s item)
    rw [List.foldl_cons, ih (s.add item) hadd, add_eq, ofItem?_eq h, List.filterMap_cons]
    cases Entry.ofItem? files item with
    | none => rfl
    | some e => rfl

def tree (told : List Entry) : List Filter := told.foldl Entry.enter []

def entries (fs : FileSystem) (l : Location) (files : List File) : List Entry :=
  (filterItems fs l).filterMap (Entry.ofItem? files)

theorem sortFiles_eq_entries (fs : FileSystem) (l : Location) (files : List File) :
    sortFiles fs l files =
      { files := (entries fs l files).foldl Entry.mark files
        filters := tree (entries fs l files) } := by
  rw [sortFiles_eq, foldl_add_eq (filterItems fs l) { files } rfl]
  rfl

theorem filterItems_of_rootOf? {fs : FileSystem} {l : Location} {bytes : Bytes}
    {items : List Element} (hb : fs.read (l.absolutePath ++ ".filters") = .ok bytes)
    (hr : (Project.rootOf? (Text.Utf8.run none bytes)).map (fun root =>
      (root.childrenNamed "ItemGroup").flatMap Element.children) = some items) :
    filterItems fs l = items := by
  obtain ⟨root, hroot, hitems⟩ := Option.map_eq_some_iff.1 hr
  have ht : fs.readText (l.absolutePath ++ ".filters") = .ok (Text.Utf8.decode bytes) := by
    rw [FileSystem.readText, hb, Except.map]
  rw [filterItems, ht]
  simp only [Project.ofFile?_of_rootOf? hroot, Option.map_some, Option.getD_some, hitems]

end Items

section Tree

variable {told : List Entry} {filters : List Filter} {path : List String}

theorem names_ne_nil (e : Entry) : e.names ≠ [] := by
  cases e with
  | filter path extensions | file path index =>
    rw [Entry.names, ← filterSegments_eq]
    exact filterSegments_ne_nil path

theorem name_change (e : Entry) (g : Filter) : (e.change g).name = g.name := by
  cases e <;> rfl

theorem filters_change (e : Entry) (g : Filter) : (e.change g).filters = g.filters := by
  cases e <;> rfl

theorem distinct_enter (h : Distinct filters) (e : Entry) : Distinct (e.enter filters) :=
  distinct_alterFilterAt (name_change e) (filters_change e) h e.names

theorem distinct_foldl_enter (h : Distinct filters) :
    Distinct (told.foldl Entry.enter filters) := by
  induction told generalizing filters with
  | nil => exact h
  | cons e rest ih => exact ih (distinct_enter h e)

def Entry.changeContent (c : Content) : Entry → Content
  | .filter _ extensions => { c with extensions }
  | .file _ index => { c with files := c.files ++ [index] }

theorem contentAt?_enter (e : Entry) (path : List String) (filters : List Filter) :
    contentAt? path (e.enter filters) =
      if path = e.names then some (e.changeContent ((contentAt? path filters).getD {}))
      else if path <+: e.names ∧ path ≠ [] then some ((contentAt? path filters).getD {})
      else contentAt? path filters :=
  contentAt?_alterFilterAt (e.changeContent ·) (name_change e) (filters_change e)
    (by intro g; cases e <;> rfl) (names_ne_nil e) path filters

theorem contentAt_enter (e : Entry) (path : List String) (filters : List Filter) :
    contentAt path (e.enter filters) =
      if path = e.names then e.changeContent (contentAt path filters)
      else contentAt path filters := by
  rw [contentAt, contentAt?_enter]
  split
  · rfl
  · split <;> rfl

theorem isSome_contentAt?_foldl_enter (told : List Entry) (path : List String)
    (filters : List Filter) :
    (contentAt? path (told.foldl Entry.enter filters)).isSome = true ↔
      (∃ e ∈ told, path <+: e.names ∧ path ≠ []) ∨ (contentAt? path filters).isSome = true := by
  refine foldl_iff_exists (fun filters => (contentAt? path filters).isSome = true)
    (fun filters e => ?_) told filters
  rw [contentAt?_enter]
  split
  · next hp => simp [hp, names_ne_nil e]
  · split
    · next hp => simp [hp]
    · next hp => simp [hp]

theorem files_contentAt_enter (e : Entry) (path : List String) (filters : List Filter) :
    (contentAt path (e.enter filters)).files =
      (contentAt path filters).files ++ (e.indexAt? path).toList := by
  rw [contentAt_enter]
  cases e with
  | filter folder extensions =>
    by_cases hp : path = pathNames folder <;>
      simp [Entry.names, Entry.changeContent, Entry.indexAt?, hp]
  | file folder index =>
    by_cases hp : path = pathNames folder
    · simp [Entry.names, Entry.changeContent, Entry.indexAt?, hp]
    · simp [Entry.names, Entry.indexAt?, hp, Ne.symm hp]

theorem files_contentAt_foldl_enter (told : List Entry) (path : List String)
    (filters : List Filter) : (contentAt path (told.foldl Entry.enter filters)).files =
    (contentAt path filters).files ++ told.filterMap (Entry.indexAt? path) := by
  induction told generalizing filters with
  | nil => simp
  | cons e rest ih =>
    rw [List.foldl_cons, ih, files_contentAt_enter, List.append_assoc, filterMap_cons_eq]

theorem extensions_contentAt_foldl_enter (told : List Entry) (path : List String)
    (filters : List Filter) :
    (contentAt path (told.foldl Entry.enter filters)).extensions =
      (lastSome? (Entry.extensionsAt? path) told).getD (contentAt path filters).extensions := by
  refine get_foldl_eq_getD (fun filters => (contentAt path filters).extensions)
    (fun filters e => ?_) told filters
  rw [contentAt_enter]
  cases e with
  | filter folder extensions =>
    by_cases hp : path = pathNames folder
    · simp [Entry.names, Entry.changeContent, Entry.extensionsAt?, hp]
    · simp [Entry.names, Entry.extensionsAt?, hp, Ne.symm hp]
  | file folder index =>
    by_cases hp : path = pathNames folder <;>
      simp [Entry.names, Entry.changeContent, Entry.extensionsAt?, hp]

theorem perm_enter (e : Entry) (filters : List Filter) :
    (allFiles (e.enter filters)).Perm (allFiles filters ++ e.index?.toList) := by
  refine perm_alterFilterAt (fun g => ?_) (filters_change e) (names_ne_nil e) filters
  cases e with
  | filter folder extensions => exact (List.append_nil g.files).symm
  | file folder index => rfl

theorem perm_foldl_enter : (allFiles (told.foldl Entry.enter filters)).Perm
    (allFiles filters ++ told.filterMap Entry.index?) := by
  induction told generalizing filters with
  | nil => simp
  | cons e rest ih =>
    rw [List.foldl_cons]
    refine ih.trans (((perm_enter e filters).append_right _).trans ?_)
    rw [List.append_assoc, filterMap_cons_eq]

theorem distinct_tree (told : List Entry) : Distinct (tree told) :=
  distinct_foldl_enter ⟨List.nodup_nil, by simp⟩

theorem isSome_at?_tree : (at? path (tree told)).isSome = true ↔
    path ≠ [] ∧ ∃ e ∈ told, path <+: e.names := by
  have h := isSome_contentAt?_foldl_enter told path []
  rw [contentAt?, contentAt?, at?_nil, Option.isSome_map] at h
  rw [tree, h]
  constructor
  · rintro (⟨e, he, hp, hne⟩ | hn)
    · exact ⟨hne, e, he, hp⟩
    · cases hn
  · rintro ⟨hne, e, he, hp⟩
    exact .inl ⟨e, he, hp, hne⟩

theorem perm_tree (told : List Entry) :
    (allFiles (tree told)).Perm (told.filterMap Entry.index?) := perm_foldl_enter

variable {g : Filter}

theorem files_of_at?_tree (h : at? path (tree told) = some g) :
    g.files = told.filterMap (Entry.indexAt? path) := by
  have hfiles := files_contentAt_foldl_enter told path []
  rw [← tree, contentAt_of_at? h, contentAt_nil] at hfiles
  exact hfiles

theorem extensions_of_at?_tree (h : at? path (tree told) = some g) :
    g.extensions = (lastSome? (Entry.extensionsAt? path) told).getD none := by
  have hextensions := extensions_contentAt_foldl_enter told path []
  rw [← tree, contentAt_of_at? h, contentAt_nil] at hextensions
  exact hextensions

/-- The tree is read off the items and what each of them tells. The names beside each other are
distinct. The filters are the ones on the paths of the items, each once, and hold the files put at
their paths, in the order of the items. A filter has the extensions that the last item to declare it
gives, if any. -/
theorem sorted_tree (fs : FileSystem) (l : Location) (files : List File) :
    let filters := (sortFiles fs l files).filters
    let told := entries fs l files
    told = (filterItems fs l).filterMap (Entry.ofItem? files) ∧
      (∀ item e, Entry.ofItem? files item = some e ↔ Tells files item e) ∧
      Distinct filters ∧
      (∀ e ∈ told, (at? e.names filters).isSome = true) ∧
      (∃ paths : List (List String), paths.Nodup ∧
        (∀ path, path ∈ paths ↔ path ≠ [] ∧ ∃ e ∈ told, path <+: e.names) ∧
        List.Forall₂ (fun path g => at? path filters = some g ∧ path.getLast? = some g.name ∧
            g.files = told.filterMap (Entry.indexAt? path) ∧
            g.extensions = (lastSome? (Entry.extensionsAt? path) told).getD none)
          paths (filters.flatMap branch)) ∧
      (allFiles filters).Perm (told.filterMap Entry.index?) ∧
      fileCount.sum filters = (told.filterMap Entry.index?).length := by
  intro filters told
  have hfilters : filters = tree told := congrArg Sorting.filters (sortFiles_eq_entries fs l files)
  rw [hfilters]
  have hdistinct := distinct_tree told
  refine ⟨rfl, fun item e => ofItem?_eq_some_iff, hdistinct, fun e he => ?_,
    ⟨(tree told).flatMap paths, nodup_paths hdistinct,
      fun path => (mem_paths_iff hdistinct).trans isSome_at?_tree, ?_⟩, perm_tree told, ?_⟩
  · exact isSome_at?_tree.2 ⟨names_ne_nil e, e, he, List.prefix_rfl⟩
  · exact (forall₂_paths hdistinct).imp fun path g hg =>
      ⟨hg, getLast?_of_at? hg, files_of_at?_tree hg, extensions_of_at?_tree hg⟩
  · rw [sum_fileCount]
    exact (perm_tree told).length_eq

def sortedPlace : Location :=
  { path := "P.vcxproj", absolutePath := "/P.vcxproj", directory := "/" }

/-- A document that includes its files in another letter case than the project, and one that the
project does not have. -/
def recasedFilters : FileSystem := ({} : FileSystem).addFile ["P.vcxproj.filters"] bytes
where
  bytes : Bytes :=
    (["<P><ItemGroup><Filter Include=\"Src\">", "<Extensions>c</Extensions></Filter>",
      "<C Include=\"b.c\"><Filter>Src\\Lib</Filter></C>",
      "<C Include=\"z.c\"><Filter>Lost</Filter></C>",
      "<C Include=\"A.c\"><Filter>Src</Filter></C>",
      "</ItemGroup></P>"].flatMap String.toList).map fun c => UInt8.ofNat c.toNat

def recasedFiles : List File := ["a.c", "B.c", "A.C"].map fun name => { relativePath := name, name }

def recasedItems : List Element :=
  { name := "Filter"
    attributes := [("Include", "Src")]
    children := [{ name := "Extensions", text := "c" }] } ::
  [("b.c", "Src\\Lib"), ("z.c", "Lost"), ("A.c", "Src")].map fun (path, folder) =>
    { name := "C"
      attributes := [("Include", path)]
      children := [{ name := "Filter", text := folder }] }

theorem filterItems_recased : filterItems recasedFilters sortedPlace = recasedItems := by
  have hread : recasedFilters.read "/P.vcxproj.filters" = .ok recasedFilters.bytes := by
    decide +kernel
  exact filterItems_of_rootOf? hread (by decide +kernel)

theorem sorted_tree_recased :
    let filters := (sortFiles recasedFilters sortedPlace recasedFiles).filters
    Distinct filters ∧ fileCount.sum filters = 2 ∧
      (filters.flatMap branch).map (fun g => (g.name, g.extensions, g.files)) =
        [("Src", some "c", [2]), ("Lib", none, [1])] := by
  obtain ⟨htold, -, hdistinct, -, -, -, hcount⟩ :=
    sorted_tree recasedFilters sortedPlace recasedFiles
  refine ⟨hdistinct, ?_, ?_⟩
  · rw [hcount, htold, filterItems_recased]
    decide +kernel
  · rw [sortFiles_eq_entries, entries, filterItems_recased]
    decide +kernel

end Tree

section LastName

/-- A path that ends in one backslash behind a name. -/
def EndsInBackslash (path : String) : Prop :=
  ∃ body c, path.toList = body ++ [c, '\\'] ∧ c ≠ '\\'

theorem getLast?_pieces (l : List Char) : (Text.pieces (· == '\\') l).getLast? =
    some (((Text.cutLast? '\\' l).map Prod.snd).getD l) := by
  cases h : Text.cutLast? '\\' l with
  | none =>
    rw [Text.pieces_of_notMem (Text.cutLast?_eq_none_iff.1 h)]
    rfl
  | some parts =>
    obtain ⟨rfl, hn⟩ := Text.eq_of_cutLast? h
    rw [Text.pieces_append (by decide), Text.pieces_of_notMem hn, List.getLast?_concat]
    rfl

theorem getLast?_pieces_eq_nil_iff (l : List Char) :
    (Text.pieces (· == '\\') l).getLast? = some [] ↔ ¬ ∃ body c, l = body ++ [c] ∧ c ≠ '\\' := by
  rw [getLast?_pieces, Option.some.injEq]
  rcases List.eq_nil_or_concat' l with rfl | ⟨body, c, rfl⟩
  · simp [Text.cutLast?]
  · by_cases hc : c = '\\'
    · subst hc
      have hcut : Text.cutLast? '\\' (body ++ ['\\']) = some (body, []) :=
        Text.cutLast?_append List.not_mem_nil body
      simp [hcut]
    · have hne : ¬ ((Text.cutLast? '\\' (body ++ [c])).map Prod.snd).getD (body ++ [c]) = [] := by
        cases h : Text.cutLast? '\\' body with
        | none =>
          have hn : '\\' ∉ body ++ [c] := by
            simpa [Ne.symm hc] using Text.cutLast?_eq_none_iff.1 h
          simp [Text.cutLast?_eq_none_iff.2 hn]
        | some parts =>
          obtain ⟨rfl, hn⟩ := Text.eq_of_cutLast? h
          have hn' : '\\' ∉ parts.2 ++ [c] := by simpa [Ne.symm hc] using hn
          rw [List.append_assoc, List.cons_append, Text.cutLast?_append hn']
          simp
      exact iff_of_false hne (not_not_intro ⟨body, c, rfl, hc⟩)

theorem lastName_ofList (l : List Char) : some (Sorting.lastName (String.ofList l)) =
    ((Text.pieces (· == '\\') l).getLast?).map String.ofList := by
  rw [Sorting.lastName, Text.splitAll, List.getLast?_map, String.toList_ofList, getLast?_pieces]
  rfl

theorem lastName_of_endsInBackslash {path : String} (h : EndsInBackslash path) :
    Sorting.lastName path = "" := by
  obtain ⟨body, c, hp, -⟩ := h
  have hpath : path = String.ofList ((body ++ [c]) ++ ['\\']) := by
    rw [← String.toList_inj, hp, String.toList_ofList, List.append_assoc]
    rfl
  have hlast := lastName_ofList ((body ++ [c]) ++ ['\\'])
  rw [Text.pieces_append (by decide), Text.pieces, List.getLast?_concat, ← hpath] at hlast
  exact Option.some.inj hlast

theorem getLast?_pathNames_eq_iff (path : String) :
    (pathNames path).getLast? = some (Sorting.lastName path) ↔ ¬ EndsInBackslash path := by
  obtain ⟨l, rfl⟩ : ∃ l, path = String.ofList l := ⟨path.toList, String.ofList_toList.symm⟩
  rw [pathNames_ofList, lastName_ofList, List.getLast?_map, EndsInBackslash, String.toList_ofList]
  rcases List.eq_nil_or_concat' l with rfl | ⟨body, c, rfl⟩
  · simp [Text.pieces]
  · by_cases hc : c = '\\'
    · subst hc
      have hpieces : Text.pieces (· == '\\') (body ++ ['\\']) =
          Text.pieces (· == '\\') body ++ [[]] := Text.pieces_append (by decide) body []
      have hlength := List.length_pos_iff.2 (Text.pieces_ne_nil (· == '\\') body)
      have hcut : ∀ body' d, body ++ ['\\'] = body' ++ [d, '\\'] ↔ body = body' ++ [d] := by
        intro body' d
        rw [← List.append_cancel_right_eq body ['\\'] (body' ++ [d]), List.append_assoc body']
        rfl
      simp only [hpieces, List.getLast?_concat, List.length_append, List.length_singleton,
        Nat.lt_add_left_iff_pos, hlength, and_self, if_true, List.dropLast_concat, hcut]
      rw [← getLast?_pieces_eq_nil_iff]
      exact (Option.map_injective fun _ _ => String.ofList_injective).eq_iff
    · have hlast : (Text.pieces (· == '\\') (body ++ [c])).getLast? ≠ some [] :=
        fun h => (getLast?_pieces_eq_nil_iff _).1 h ⟨body, c, rfl, hc⟩
      refine iff_of_true ?_ ?_
      · simp [hlast]
      · rintro ⟨body', d, h, -⟩
        have hend := congrArg List.getLast? h
        simp only [List.getLast?_append] at hend
        exact hc (Option.some.inj hend)

end LastName

section Files

variable {files : List File} {i : Nat} {f : File}

theorem getElem?_mark (e : Entry) (files : List File) (i : Nat) : (e.mark files)[i]? =
    files[i]?.map fun f =>
      { f with filter := ((e.folderOf? i).map Sorting.lastName).or f.filter } := by
  cases e with
  | filter folder extensions => simp [Entry.mark, Entry.folderOf?]
  | file folder index =>
    rw [Entry.mark, Sorting.setFilter, List.getElem?_modify]
    by_cases h : index = i <;> simp [Entry.folderOf?, h]

theorem getElem?_foldl_mark (told : List Entry) (files : List File) (i : Nat) :
    (told.foldl Entry.mark files)[i]? = files[i]?.map fun f =>
      { f with
        filter := ((lastSome? (Entry.folderOf? i) told).map Sorting.lastName).or f.filter } := by
  induction told generalizing files with
  | nil => simp [lastSome?]
  | cons e rest ih =>
    rw [List.foldl_cons, ih, getElem?_mark, Option.map_map, lastSome?_cons]
    cases lastSome? (Entry.folderOf? i) rest <;> rfl

theorem count_index? (told : List Entry) (i : Nat) : (told.filterMap Entry.index?).count i =
    (told.filterMap (Entry.folderOf? i)).length := by
  induction told with
  | nil => rfl
  | cons e rest ih =>
    cases e with
    | filter folder extensions => exact ih
    | file folder index =>
      by_cases h : index = i <;>
        simpa [List.filterMap_cons, Entry.index?, Entry.folderOf?, h] using ih

theorem count_indexAt? (told : List Entry) (path : List String) (i : Nat) :
    (told.filterMap (Entry.indexAt? path)).count i =
      ((told.filterMap (Entry.folderOf? i)).map pathNames).count path := by
  induction told with
  | nil => rfl
  | cons e rest ih =>
    cases e with
    | filter folder extensions => exact ih
    | file folder index =>
      by_cases h : index = i <;> by_cases hp : pathNames folder = path <;>
        simpa [List.filterMap_cons, Entry.indexAt?, Entry.folderOf?, h, hp] using ih

/-- The folder into which an item puts a file. -/
def folderFor? (f : File) (item : Element) : Option String :=
  if item.name ≠ "Filter" ∧
      (item.attribute? "Include").any (Text.sameIgnoringCase f.relativePath) = true then
    childText? item "Filter"
  else none

theorem indexOf?_eq_some_iff (hn : (files.map fun f => Text.lower f.relativePath).Nodup)
    (hi : files[i]? = some f) (path : String) :
    Sorting.indexOf? files path = some i ↔ Text.sameIgnoringCase f.relativePath path = true := by
  rw [indexOf?_eq_some_iff_last]
  constructor
  · rintro ⟨⟨g, hg, hp⟩, -⟩
    rw [hi] at hg
    cases hg
    exact hp
  · intro hp
    refine ⟨⟨f, hi, hp⟩, fun j g hg hp' => Nat.le_of_eq ?_⟩
    have hlower : Text.lower g.relativePath = Text.lower f.relativePath :=
      (Text.sameIgnoringCase_iff.1 hp').trans (Text.sameIgnoringCase_iff.1 hp).symm
    have hlt : j < (files.map fun f => Text.lower f.relativePath).length := by
      rw [List.length_map]
      exact (List.getElem?_eq_some_iff.1 hg).1
    refine (List.getElem?_inj hlt hn).1 ?_
    simp only [List.getElem?_map, hi, hg, Option.map_some, hlower]

theorem folderOf?_ofItem? (hn : (files.map fun f => Text.lower f.relativePath).Nodup)
    (hi : files[i]? = some f) (item : Element) :
    (Entry.ofItem? files item).bind (Entry.folderOf? i) = folderFor? f item := by
  unfold Entry.ofItem? folderFor?
  cases item.attribute? "Include" with
  | none => simp
  | some path =>
    by_cases hname : item.name = "Filter"
    · simp [hname, Entry.folderOf?]
    · have hindex := indexOf?_eq_some_iff hn hi path
      cases childText? item "Filter" with
      | none => simp [hname]
      | some folder =>
        cases hx : Sorting.indexOf? files path with
        | none =>
          rw [hx] at hindex
          simp [hname, ← hindex, hx]
        | some index =>
          rw [hx, Option.some.injEq] at hindex
          simp [hname, Entry.folderOf?, hx, hindex]

theorem filterMap_folderOf? (hn : (files.map fun f => Text.lower f.relativePath).Nodup)
    (hi : files[i]? = some f) (fs : FileSystem) (l : Location) :
    (entries fs l files).filterMap (Entry.folderOf? i) =
      (filterItems fs l).filterMap (folderFor? f) := by
  rw [entries, List.filterMap_filterMap]
  simp only [folderOf?_ofItem? hn hi]

theorem names_of_folderOf? {e : Entry} {folder : String} (h : e.folderOf? i = some folder) :
    e.names = pathNames folder := by
  cases e with
  | filter path extensions => cases h
  | file path index =>
    rw [Entry.folderOf?] at h
    split at h
    · rw [Entry.names, Option.some.inj h]
    · cases h

theorem exists_filter_of_folder {told : List Entry} {folder : String}
    (h : told.filterMap (Entry.folderOf? i) = [folder]) :
    (allFiles (tree told)).count i = 1 ∧
      ∃ g, at? (pathNames folder) (tree told) = some g ∧ g.files.count i = 1 := by
  refine ⟨by rw [(perm_tree told).count_eq, count_index?, h]; rfl, ?_⟩
  obtain ⟨e, he, hfor⟩ : ∃ e ∈ told, e.folderOf? i = some folder :=
    List.mem_filterMap.1 (h ▸ List.mem_singleton_self folder)
  obtain ⟨g, hg⟩ := Option.isSome_iff_exists.1
    (isSome_at?_tree.2 ⟨names_ne_nil e, e, he, List.prefix_rfl⟩)
  rw [names_of_folderOf? hfor] at hg
  refine ⟨g, hg, ?_⟩
  rw [files_of_at?_tree hg, count_indexAt?, h]
  simp

/-- If no two files have the same path up to letter case and no file is put into folders twice, a
file that is put into a folder is in the filter at the path of the folder, once, and in no other
one. Its own filter is the last name of the path, which is the name of that filter unless the path
ends in a backslash behind a name: then it is empty. A file that is put into no folder is in no
filter, and stays as it is. -/
theorem filter_of_sorted_file (fs : FileSystem) (l : Location) (files : List File)
    (hn : (files.map fun f => Text.lower f.relativePath).Nodup)
    (honce : ∀ f ∈ files, ((filterItems fs l).filterMap (folderFor? f)).length ≤ 1) :
    let sorted := sortFiles fs l files
    ∀ i f, files[i]? = some f →
      (∀ item ∈ filterItems fs l, ∀ folder, folderFor? f item = some folder →
        (allFiles sorted.filters).count i = 1 ∧
        ∃ g, at? (pathNames folder) sorted.filters = some g ∧ g.files.count i = 1 ∧
          ∃ name, sorted.files[i]? = some { f with filter := some name } ∧
            (name = g.name ↔ ¬ EndsInBackslash folder) ∧
            (EndsInBackslash folder → name = "")) ∧
      ((∀ item ∈ filterItems fs l, folderFor? f item = none) →
        i ∉ allFiles sorted.filters ∧ sorted.files[i]? = some f) := by
  intro sorted i f hi
  have hsorted : sorted = _ := sortFiles_eq_entries fs l files
  have hfolders := filterMap_folderOf? hn hi fs l
  have hfile : sorted.files[i]? = some { f with
      filter :=
        (((filterItems fs l).filterMap (folderFor? f)).getLast?.map Sorting.lastName).or
          f.filter } := by
    rw [hsorted, getElem?_foldl_mark, hi, lastSome?_eq_getLast?, hfolders]
    rfl
  constructor
  · intro item hitem folder hfolder
    have hmem : folder ∈ (filterItems fs l).filterMap (folderFor? f) :=
      List.mem_filterMap.2 ⟨item, hitem, hfolder⟩
    have hone : (filterItems fs l).filterMap (folderFor? f) = [folder] := by
      obtain ⟨x, hx⟩ := List.length_eq_one_iff.1
        (Nat.le_antisymm (honce f (List.mem_of_getElem? hi)) (List.length_pos_of_mem hmem))
      rw [hx] at hmem ⊢
      rw [List.mem_singleton.1 hmem]
    rw [hone] at hfile hfolders
    obtain ⟨hcount, g, hg, hgfiles⟩ := exists_filter_of_folder hfolders
    refine ⟨by rw [hsorted, hcount], g, by rw [hsorted, hg], hgfiles, Sorting.lastName folder,
      hfile, ?_, lastName_of_endsInBackslash⟩
    rw [← getLast?_pathNames_eq_iff, getLast?_of_at? hg, Option.some.injEq]
    exact eq_comm
  · intro hnone
    have hnil : (filterItems fs l).filterMap (folderFor? f) = [] := by
      simpa [List.filterMap_eq_nil_iff] using hnone
    rw [hnil] at hfile hfolders
    refine ⟨List.count_eq_zero.1 ?_, hfile⟩
    rw [hsorted, (perm_tree _).count_eq, count_index?, hfolders]
    rfl

def backslashedFilters : FileSystem :=
  ({} : FileSystem).addFile ["P.vcxproj.filters"] (text.toList.map fun c => UInt8.ofNat c.toNat)
where
  text : String :=
    "<P><ItemGroup><C Include=\"a.c\"><Filter>Src\\</Filter></C>" ++
    "<C Include=\"b.c\"><Filter>Src\\Lib</Filter></C></ItemGroup></P>"

def backslashedFiles : List File := ["a.c", "B.c", "c.c"].map fun name =>
  { relativePath := name, name }

def backslashedItems : List Element :=
  [("a.c", "Src\\"), ("b.c", "Src\\Lib")].map fun (path, folder) =>
    { name := "C"
      attributes := [("Include", path)]
      children := [{ name := "Filter", text := folder }] }

theorem filterItems_backslashed :
    filterItems backslashedFilters sortedPlace = backslashedItems := by
  decide +kernel

theorem filter_of_sorted_file_backslashed :
    (backslashedFiles.map fun f => Text.lower f.relativePath).Nodup ∧
    (∀ f ∈ backslashedFiles, ((filterItems backslashedFilters sortedPlace).filterMap
      (folderFor? f)).length ≤ 1) ∧
    let sorted := sortFiles backslashedFilters sortedPlace backslashedFiles
    (allFiles sorted.filters).count 0 = 1 ∧ (allFiles sorted.filters).count 1 = 1 ∧
      2 ∉ allFiles sorted.filters ∧ sorted.files[0]?.map File.filter = some (some "") ∧
      sorted.files[1]?.map File.filter = some (some "Lib") ∧
      sorted.files[2]?.map File.filter = some none := by
  have hn : (backslashedFiles.map fun f => Text.lower f.relativePath).Nodup := by decide +kernel
  have honce : ∀ f ∈ backslashedFiles, ((filterItems backslashedFilters
      sortedPlace).filterMap (folderFor? f)).length ≤ 1 := by
    rw [filterItems_backslashed]
    decide +kernel
  have h := filter_of_sorted_file backslashedFilters sortedPlace backslashedFiles hn honce
  rw [filterItems_backslashed] at h
  obtain ⟨hcount₀, g₀, -, -, name₀, hfile₀, -, hempty⟩ :=
    (h 0 _ rfl).1 _ (List.mem_cons_self) "Src\\" (by decide +kernel)
  obtain ⟨hcount₁, g₁, hg₁, -, name₁, hfile₁, hsame, -⟩ :=
    (h 1 _ rfl).1 _ (List.mem_cons_of_mem _ List.mem_cons_self) "Src\\Lib" (by decide +kernel)
  obtain ⟨hnone, hfile₂⟩ := (h 2 _ rfl).2 (by decide +kernel)
  have hname₀ : name₀ = "" := hempty ⟨['S', 'r'], 'c', by decide, by decide⟩
  have hname₁ : name₁ = "Lib" := by
    rw [hsame.2 ((getLast?_pathNames_eq_iff _).1 (by decide +kernel))]
    have hlast : (pathNames "Src\\Lib").getLast? = some "Lib" := by decide +kernel
    rw [getLast?_of_at? hg₁] at hlast
    exact Option.some.inj hlast
  refine ⟨hn, honce, hcount₀, hcount₁, hnone, ?_, ?_, ?_⟩
  · rw [hfile₀, hname₀]
    rfl
  · rw [hfile₁, hname₁]
    rfl
  · rw [hfile₂]
    rfl

/-- A file whose folder is written with a backslash behind it is in the filter `Src`, but its own
filter is empty. -/
theorem filter_name_lost :
    (backslashedFiles.map fun f => Text.lower f.relativePath).Nodup ∧
    (∀ f ∈ backslashedFiles, ((filterItems backslashedFilters sortedPlace).filterMap
      (folderFor? f)).length ≤ 1) ∧
    let sorted := sortFiles backslashedFilters sortedPlace backslashedFiles
    (sorted.filters.flatMap branch).map (fun g => (g.name, g.files)) =
        [("Src", [0]), ("Lib", [1])] ∧
      sorted.files.map File.filter = [some "", some "Lib", none] := by
  rw [sortFiles_eq_entries, entries, filterItems_backslashed]
  decide +kernel

end Files

end StudioMake.MSBuild
