import Mathlib.Algebra.GroupWithZero.Nat
import StudioMake.Proofs.VisualStudio.FilePartition
import StudioMake.Proofs.VisualStudio.Positions

/-!
# Files and filters of a listing

The list of files and the tree of filters come from two recursions over the same listing. Both
follow the positions of its elements: the files stand in document order, and a filter holds the
numbers of those files whose elements lie directly in its own element.
-/

set_option autoImplicit false

namespace StudioMake

theorem Filter.sum_map_fileCount (l : List Filter) :
    (l.map fileCount).sum = ((l.flatMap branch).flatMap files).length := by
  rw [← sum_fileCount]
  induction l with
  | nil => rfl
  | cons f rest ih => rw [List.map_cons, List.sum_cons, ih, fileCount.sum]

namespace VisualStudio

open Xml

section Numbers

def filesIn (n : Nat) (files : List (List Nat)) (folder : List Nat) : List Nat :=
  ((files.zipIdx n).filter fun entry => entry.1.dropLast = folder).map Prod.snd

variable {n k i : Nat} {files files' : List (List Nat)} {folder : List Nat}

theorem filesIn_append : filesIn n (files ++ files') folder =
    filesIn n files folder ++ filesIn (n + files.length) files' folder := by
  rw [filesIn, List.zipIdx_append, List.filter_append, List.map_append]
  rfl

theorem filesIn_cons (file : List Nat) : filesIn n (file :: files) folder =
    (if file.dropLast = folder then [n] else []) ++ filesIn (n + 1) files folder := by
  by_cases h : file.dropLast = folder <;> simp [filesIn, List.zipIdx_cons, h]

theorem filesIn_eq_nil (h : ∀ file ∈ files, file.dropLast ≠ folder) :
    filesIn n files folder = [] := by
  induction files generalizing n with
  | nil => rfl
  | cons file files ih =>
    rw [filesIn_cons, if_neg (h file List.mem_cons_self),
      ih fun f hf => h f (List.mem_cons_of_mem file hf), List.nil_append]

theorem dropLast_cons_of_ne_nil {file : List Nat} (h : file ≠ []) :
    (k :: file).dropLast = k :: file.dropLast := by
  cases file with
  | nil => exact absurd rfl h
  | cons j rest => rfl

theorem filesIn_map_cons (h : [] ∉ files) :
    filesIn n (files.map (k :: ·)) (k :: folder) = filesIn n files folder := by
  induction files generalizing n with
  | nil => rfl
  | cons file files ih =>
    rw [List.mem_cons, not_or] at h
    rw [List.map_cons, filesIn_cons, filesIn_cons, ih h.2, dropLast_cons_of_ne_nil (Ne.symm h.1)]
    simp

theorem mem_filesIn :
    i ∈ filesIn n files folder ↔ n ≤ i ∧ ∃ file, files[i - n]? = some file ∧
      file.dropLast = folder := by
  rw [filesIn, mem_indices_iff (p := fun file : List Nat => decide (file.dropLast = folder))]
  simp only [decide_eq_true_eq]

theorem nodup_filesIn : (filesIn n files folder).Nodup :=
  (pairwise_indices _ files n).imp Nat.ne_of_lt

end Numbers

section Elements

/-- The element at a position among some elements, the first of which has the number `k`. -/
def At (k : Nat) (es : List Element) (position : List Nat) (e : Element) : Prop :=
  ∃ j rest c, position = (k + j) :: rest ∧ es[j]? = some c ∧ c.descendant? rest = some e

variable {k : Nat} {es : List Element} {position : List Nat} {c e : Element}

theorem at_cons (h : c.descendant? position = some e) : At k (c :: es) (k :: position) e :=
  ⟨0, position, c, rfl, rfl, h⟩

theorem At.cons (h : At (k + 1) es position e) : At k (c :: es) position e := by
  obtain ⟨j, rest, d, rfl, hd, he⟩ := h
  exact ⟨j + 1, rest, d, by rw [Nat.add_right_comm, Nat.add_assoc], hd, he⟩

theorem at_children_iff {root : Element} :
    At 0 root.children position e ↔ position ≠ [] ∧ root.descendant? position = some e := by
  constructor
  · rintro ⟨j, rest, c, rfl, hc, he⟩
    refine ⟨by simp, ?_⟩
    rw [Nat.zero_add, descendant?_cons, hc]
    exact he
  · rintro ⟨hn, he⟩
    cases position with
    | nil => exact absurd rfl hn
    | cons j rest =>
      obtain ⟨c, hc, he⟩ := Option.bind_eq_some_iff.1 he
      exact ⟨j, rest, c, by rw [Nat.zero_add], hc, he⟩

theorem At.below (h : At 0 e.children position c) : At k (e :: es) (k :: position) c :=
  at_cons (at_children_iff.1 h).2

theorem At.le {j : Nat} (h : At k es (j :: position) e) : k ≤ j := by
  obtain ⟨i, rest, c, heq, -, -⟩ := h
  cases heq
  omega

theorem At.ne_nil (h : At k es position e) : position ≠ [] := by
  obtain ⟨j, rest, c, rfl, -, -⟩ := h
  simp

end Elements

section Listing

variable {es : List Element} {e : Element} {k n : Nat} {outer : Option String}

theorem ofElement_eq (e : Element) : Listing.ofElement e =
    if isFile e then [.file e]
    else if isFilter e then
      [.filter (e.attributeD "Name") (e.attribute? "Filter") (Listing.ofElements e.children)]
    else [] := by
  cases e
  rw [Listing.ofElement]
  rfl

theorem isFile_eq_false (h : isFilter e = true) : isFile e = false := by
  simp only [isFilter, Bool.and_eq_true, Bool.not_eq_true'] at h
  exact h.1

theorem isFilter_eq_false (h : isFile e = true) : isFilter e = false := by
  simp [isFilter, h]

theorem Listing.files_append (l₁ l₂ : List Listing) :
    Listing.files outer (l₁ ++ l₂) = Listing.files outer l₁ ++ Listing.files outer l₂ := by
  induction l₁ with
  | nil => rfl
  | cons entry l₁ ih =>
    rw [List.cons_append, Listing.files, Listing.files, ih, List.append_assoc]

/-- An entry of the list of files: the element at a position, under the name of the element that
holds it. -/
structure ListedAt (k : Nat) (es : List Element) (outer : Option String) (file : List Nat)
    (entry : Option String × Element) : Prop where
  element : At k es file entry.2
  filter : file.dropLast = [] ∧ entry.1 = outer ∨
    ∃ folder, At k es file.dropLast folder ∧ entry.1 = some (folder.attributeD "Name")

theorem ListedAt.cons {file : List Nat} {entry : Option String × Element}
    (h : ListedAt (k + 1) es outer file entry) : ListedAt k (e :: es) outer file entry := by
  refine ⟨h.element.cons, ?_⟩
  rcases h.filter with h | ⟨folder, hf, hn⟩
  · exact .inl h
  · exact .inr ⟨folder, hf.cons, hn⟩

theorem ListedAt.below {file : List Nat} {entry : Option String × Element}
    (h : ListedAt 0 e.children (some (e.attributeD "Name")) file entry) :
    ListedAt k (e :: es) outer (k :: file) entry := by
  refine ⟨h.element.below, .inr ?_⟩
  rw [dropLast_cons_of_ne_nil h.element.ne_nil]
  rcases h.filter with ⟨hd, hn⟩ | ⟨folder, hf, hn⟩
  · exact ⟨e, by rw [hd]; exact at_cons rfl, hn⟩
  · exact ⟨folder, hf.below, hn⟩

def ListsFiles (e : Element) : Prop :=
  ∀ outer, List.Forall₂ (ListedAt 0 e.children outer) (positions isFile 0 e.children)
    (Listing.files outer (Listing.ofElements e.children))

theorem listed_of (h : ∀ e ∈ es, ListsFiles e) (k : Nat) (outer : Option String) :
    List.Forall₂ (ListedAt k es outer) (positions isFile k es)
      (Listing.files outer (Listing.ofElements es)) := by
  induction es generalizing k with
  | nil => exact .nil
  | cons e es ih =>
    rw [positions_cons, Listing.ofElements, Listing.files_append]
    refine List.rel_append ?_ ((ih (fun d hd => h d (List.mem_cons_of_mem e hd)) (k + 1)).imp
      fun _ _ hl => hl.cons)
    rw [positionsFrom_eq, ofElement_eq]
    by_cases hf : isFile e = true
    · rw [if_pos hf, if_pos hf, isFilter_eq_false hf]
      exact .cons ⟨at_cons rfl, .inl ⟨rfl, rfl⟩⟩ .nil
    · rw [if_neg hf, if_neg hf]
      by_cases hg : isFilter e = true
      · rw [if_pos hg, if_pos hg, List.nil_append, List.forall₂_map_left_iff, Listing.files,
          Listing.files, List.append_nil, Listing.entryFiles]
        exact (h e List.mem_cons_self _).imp fun _ _ hl => hl.below
      · rw [if_neg hg, if_neg hg]
        exact .nil

theorem listsFiles (e : Element) : ListsFiles e := by
  induction e using Element.induction_children with
  | step e ih => exact listed_of ih 0

/-- A filter is made from an element, and the filters in it from the filters among its children. -/
structure MadeFrom (e : Element) (g : Filter) : Prop where
  name : g.name = e.attributeD "Name"
  extensions : g.extensions = e.attribute? "Filter"
  filters : g.filters.map Filter.name = (e.children.filter isFilter).map (·.attributeD "Name")

/-- A filter of the tree: the one made from the element at a position, with the numbers of the files
directly in it. -/
structure FilterAt (n k : Nat) (es : List Element) (files : List (List Nat)) (folder : List Nat)
    (g : Filter) : Prop where
  made : ∃ e, At k es folder e ∧ MadeFrom e g
  files_eq : g.files = filesIn n files folder

structure Numbered (n k : Nat) (es : List Element) (r : List Nat × List Filter × Nat) : Prop where
  top : r.1 = filesIn n (positions isFile k es) []
  names : r.2.1.map Filter.name = (es.filter isFilter).map (·.attributeD "Name")
  tree : List.Forall₂ (FilterAt n k es (positions isFile k es)) (positions isFilter k es)
    (r.2.1.flatMap Filter.branch)
  next : r.2.2 = n + (positions isFile k es).length

theorem FilterAt.cons {files : List (List Nat)} {folder : List Nat} {g : Filter}
    (before : List (List Nat)) (h : FilterAt (n + before.length) (k + 1) es files folder g)
    (hb : ∀ file ∈ before, file.dropLast = [] ∨ ∃ rest, file.dropLast = k :: rest) :
    FilterAt n k (e :: es) (before ++ files) folder g := by
  obtain ⟨d, hd, hm⟩ := h.made
  refine ⟨⟨d, hd.cons, hm⟩, ?_⟩
  have hne : ∀ file ∈ before, file.dropLast ≠ folder := by
    rintro file hfile rfl
    rcases hb file hfile with hn | ⟨rest, hr⟩
    · exact hd.ne_nil hn
    · have hle := At.le (hr ▸ hd)
      omega
  rw [h.files_eq, filesIn_append, filesIn_eq_nil hne, List.nil_append]

theorem FilterAt.below {files after : List (List Nat)} {folder : List Nat} {g : Filter}
    (h : FilterAt n 0 e.children files folder g) (hn : [] ∉ files)
    (ha : ∀ file ∈ after, file.dropLast ≠ k :: folder) :
    FilterAt n k (e :: es) (files.map (k :: ·) ++ after) (k :: folder) g := by
  obtain ⟨d, hd, hm⟩ := h.made
  refine ⟨⟨d, hd.below, hm⟩, ?_⟩
  rw [h.files_eq, filesIn_append, filesIn_map_cons hn, filesIn_eq_nil ha, List.append_nil]

theorem dropLast_ne_of_mem_positions {p : Element → Bool} {file folder : List Nat}
    (h : file ∈ positions p (k + 1) es) : file.dropLast ≠ k :: folder := by
  obtain ⟨j, rest, hj, rfl⟩ := exists_cons_of_mem_positions h
  intro heq
  cases rest with
  | nil => cases heq
  | cons i rest =>
    cases heq
    omega

theorem Listing.number_file (l : List Listing) : Listing.number n (.file e :: l) =
    (n :: (Listing.number (n + 1) l).1, (Listing.number (n + 1) l).2) := by
  rw [Listing.number]

theorem Listing.number_filter (name : String) (extensions : Option String)
    (entries l : List Listing) :
    Listing.number n (.filter name extensions entries :: l) =
      ((Listing.number (Listing.number n entries).2.2 l).1,
        ⟨name, extensions, (Listing.number n entries).1, (Listing.number n entries).2.1⟩ ::
          (Listing.number (Listing.number n entries).2.2 l).2.1,
        (Listing.number (Listing.number n entries).2.2 l).2.2) := by
  rw [Listing.number]

section Steps

variable {r : List Nat × List Filter × Nat}

theorem Numbered.skip (h : Numbered n (k + 1) es r) (hf : isFile e = false)
    (hg : isFilter e = false) : Numbered n k (e :: es) r := by
  have hp : ∀ p : Element → Bool, p e = false → positions p k (e :: es) =
      positions p (k + 1) es := by
    intro p hp
    simp [positions_cons, positionsFrom_eq, hp, hg]
  constructor
  · rw [hp _ hf, h.top]
  · rw [List.filter_cons, hg, h.names]
    rfl
  · rw [hp _ hf, hp _ hg]
    exact h.tree.imp fun _ _ ht => ht.cons [] (by simp)
  · rw [hp _ hf, h.next]

theorem Numbered.file (h : Numbered (n + 1) (k + 1) es r) (hf : isFile e = true) :
    Numbered n k (e :: es) (n :: r.1, r.2) := by
  have hg := isFilter_eq_false hf
  have hfiles : positions isFile k (e :: es) = [[k]] ++ positions isFile (k + 1) es := by
    simp [positions_cons, positionsFrom_eq, hf, hg]
  have hfolders : positions isFilter k (e :: es) = positions isFilter (k + 1) es := by
    simp [positions_cons, positionsFrom_eq, hg]
  constructor
  · rw [hfiles, List.singleton_append, filesIn_cons, h.top]
    rfl
  · rw [List.filter_cons, hg, h.names]
    rfl
  · rw [hfiles, hfolders]
    exact h.tree.imp fun _ _ ht => ht.cons [[k]] (by simp)
  · rw [hfiles, h.next, List.length_append, List.length_singleton]
    omega

theorem Numbered.filter {inner : List Nat × List Filter × Nat}
    (hi : Numbered n 0 e.children inner) (h : Numbered inner.2.2 (k + 1) es r)
    (hg : isFilter e = true) :
    Numbered n k (e :: es) (r.1,
      ⟨e.attributeD "Name", e.attribute? "Filter", inner.1, inner.2.1⟩ :: r.2.1, r.2.2) := by
  have hf := isFile_eq_false hg
  have hfiles : positions isFile k (e :: es) =
      (positions isFile 0 e.children).map (k :: ·) ++ positions isFile (k + 1) es := by
    simp [positions_cons, positionsFrom_eq, hf, hg]
  have hfolders : positions isFilter k (e :: es) =
      [k] :: ((positions isFilter 0 e.children).map (k :: ·) ++ positions isFilter (k + 1) es) := by
    simp [positions_cons, positionsFrom_eq, hg]
  have hnext : inner.2.2 = n + ((positions isFile 0 e.children).map (k :: ·)).length := by
    rw [List.length_map, hi.next]
  have hbefore : ∀ file ∈ (positions isFile 0 e.children).map (k :: ·),
      file.dropLast = [] ∨ ∃ rest, file.dropLast = k :: rest := by
    intro file hm
    obtain ⟨rest, hr, rfl⟩ := List.mem_map.1 hm
    exact .inr ⟨rest.dropLast,
      dropLast_cons_of_ne_nil fun hn => nil_notMem_positions (hn ▸ hr)⟩
  have hafter : ∀ folder, ∀ file ∈ positions isFile (k + 1) es, file.dropLast ≠ k :: folder :=
    fun folder file hm => dropLast_ne_of_mem_positions hm
  constructor
  · rw [hfiles, filesIn_append, ← hnext, ← h.top, filesIn_eq_nil, List.nil_append]
    intro file hm
    obtain ⟨rest, hr, rfl⟩ := List.mem_map.1 hm
    rw [dropLast_cons_of_ne_nil fun hn => nil_notMem_positions (hn ▸ hr)]
    simp
  · rw [List.map_cons, h.names, List.filter_cons, if_pos hg, List.map_cons]
  · rw [hfiles, hfolders, List.flatMap_cons, Filter.branch_eq, List.cons_append]
    refine .cons ⟨⟨e, at_cons rfl, rfl, rfl, hi.names⟩, ?_⟩ (List.rel_append ?_ ?_)
    · rw [filesIn_append, filesIn_map_cons nil_notMem_positions, filesIn_eq_nil (hafter []),
        List.append_nil]
      exact hi.top
    · rw [List.forall₂_map_left_iff]
      exact hi.tree.imp fun folder _ ht => ht.below nil_notMem_positions (hafter folder)
    · rw [hnext] at h
      exact h.tree.imp fun _ _ ht => ht.cons _ hbefore
  · rw [hfiles, h.next, hnext, List.length_append]
    omega

end Steps

theorem numbered_of
    (h : ∀ e ∈ es, ∀ n, Numbered n 0 e.children (Listing.number n (Listing.ofElements e.children)))
    (k n : Nat) : Numbered n k es (Listing.number n (Listing.ofElements es)) := by
  induction es generalizing k n with
  | nil =>
    rw [Listing.ofElements, Listing.number]
    exact ⟨rfl, rfl, .nil, rfl⟩
  | cons e es ih =>
    have hrest := ih fun d hd => h d (List.mem_cons_of_mem e hd)
    rw [Listing.ofElements, ofElement_eq]
    by_cases hf : isFile e = true
    · rw [if_pos hf, List.singleton_append, Listing.number_file]
      exact (hrest (k + 1) (n + 1)).file hf
    · rw [if_neg hf]
      by_cases hg : isFilter e = true
      · rw [if_pos hg, List.singleton_append, Listing.number_filter]
        exact (h e List.mem_cons_self n).filter (hrest (k + 1) _) hg
      · rw [if_neg hg, List.nil_append]
        exact (hrest (k + 1) n).skip (by simpa using hf) (by simpa using hg)

theorem numbered_ofElements (e : Element) (n : Nat) :
    Numbered n 0 e.children (Listing.number n (Listing.ofElements e.children)) := by
  induction e using Element.induction_children generalizing n with
  | step e ih => exact numbered_of ih 0 n

theorem length_filesIn_top (n k : Nat) (es : List Element) :
    (filesIn n (positions isFile k es) []).length = es.countP isFile := by
  induction es generalizing n k with
  | nil => rfl
  | cons e es ih =>
    rw [positions_cons, filesIn_append, List.length_append, ih, List.countP_cons, positionsFrom_eq]
    by_cases hf : isFile e = true
    · rw [isFilter_eq_false hf, if_pos hf, if_pos hf]
      exact Nat.add_comm 1 _
    · have hn : filesIn n ((if isFilter e = true then positions isFile 0 e.children else []).map
          (k :: ·)) [] = [] := by
        refine filesIn_eq_nil fun file hm => ?_
        obtain ⟨rest, hr, rfl⟩ := List.mem_map.1 hm
        split at hr
        · rw [dropLast_cons_of_ne_nil fun hn => nil_notMem_positions (hn ▸ hr)]
          simp
        · cases hr
      rw [if_neg hf, if_neg hf, List.nil_append, hn]
      exact Nat.zero_add _

end Listing

section Folders

variable {i : Nat} {files folders : List (List Nat)}

theorem mem_flatMap_filesIn : i ∈ folders.flatMap (filesIn 0 files) ↔
    ∃ file, files[i]? = some file ∧ file.dropLast ∈ folders := by
  simp only [List.mem_flatMap, mem_filesIn]
  constructor
  · rintro ⟨folder, hm, -, file, hf, rfl⟩
    exact ⟨file, hf, hm⟩
  · rintro ⟨file, hf, hm⟩
    exact ⟨_, hm, Nat.zero_le i, file, hf, rfl⟩

theorem nodup_flatMap_filesIn (h : folders.Nodup) :
    (folders.flatMap (filesIn 0 files)).Nodup := by
  rw [List.nodup_flatMap]
  refine ⟨fun _ _ => nodup_filesIn, h.imp fun hne => ?_⟩
  intro i ha hb
  obtain ⟨-, file, hf, rfl⟩ := mem_filesIn.1 ha
  obtain ⟨-, file', hf', rfl⟩ := mem_filesIn.1 hb
  rw [hf] at hf'
  cases hf'
  exact hne rfl

theorem length_flatMap_filesIn (h : folders.Nodup)
    (hall : ∀ file ∈ files, file.dropLast ∈ folders) :
    (folders.flatMap (filesIn 0 files)).length = files.length := by
  have hp : (folders.flatMap (filesIn 0 files)).Perm (List.range files.length) := by
    rw [List.perm_ext_iff_of_nodup (nodup_flatMap_filesIn h) List.nodup_range]
    intro i
    rw [mem_flatMap_filesIn, List.mem_range]
    constructor
    · rintro ⟨file, hf, -⟩
      exact (List.getElem?_eq_some_iff.1 hf).1
    · intro hi
      exact ⟨files[i], List.getElem?_eq_getElem hi, hall _ (List.getElem_mem hi)⟩
  rw [hp.length_eq, List.length_range]

end Folders

section Tree

variable {p : Project} {root : Element} {i : Nat} {position : List Nat}

theorem tree_addFiles (p : Project) (root : Element) :
    List.Forall₂ (FilterAt 0 0 root.children (positions isFile 0 root.children))
      (positions isFilter 0 root.children) (addFiles p root).allFilters :=
  (numbered_ofElements root 0).tree

theorem numbers_addFiles (p : Project) (root : Element) :
    (addFiles p root).allFilters.flatMap Filter.files =
      (positions isFilter 0 root.children).flatMap (filesIn 0 (positions isFile 0 root.children)) :=
  flatMap_eq_of_forall₂ ((tree_addFiles p root).imp fun _ _ hg => hg.files_eq)

structure IsFileOf (root : Element) (position : List Nat) (f : File) : Prop where
  element : ∃ e, root.descendant? position = some e ∧ f.relativePath = e.attributeD "RelativePath"
  filter_top : position.dropLast = [] → f.filter = filterName? root
  filter : ∀ folder, position.dropLast ≠ [] → root.descendant? position.dropLast = some folder →
    f.filter = some (folder.attributeD "Name")

theorem files_addFiles (p : Project) (root : Element) :
    List.Forall₂ (IsFileOf root) (positions isFile 0 root.children) (addFiles p root).files := by
  have hl := listsFiles root (filterName? root)
  simp only [addFiles, readFiles, List.map_map, List.forall₂_map_right_iff]
  refine hl.imp fun file entry hm => ?_
  have hu := unrecorded_readFile p.directory p.configurations entry.1 entry.2
  have hfilter := congrArg File.filter hu
  have hpath := congrArg File.relativePath hu
  rcases hm.filter with ⟨hd, hn⟩ | ⟨folder, hf, hn⟩
  · exact ⟨⟨entry.2, (at_children_iff.1 hm.element).2, hpath⟩, fun _ => hfilter.trans hn,
      fun _ hne => absurd hd hne⟩
  · obtain ⟨hne, hf⟩ := at_children_iff.1 hf
    refine ⟨⟨entry.2, (at_children_iff.1 hm.element).2, hpath⟩, fun hd => absurd hd hne, ?_⟩
    intro folder' _ hf'
    rw [hf] at hf'
    cases hf'
    exact hfilter.trans hn

theorem notMem_filters (hf : (positions isFile 0 root.children)[i]? = some position)
    (hd : position.dropLast = []) : i ∉ (addFiles p root).allFilters.flatMap Filter.files := by
  rw [numbers_addFiles, mem_flatMap_filesIn]
  rintro ⟨file, hfile, hm⟩
  rw [hf] at hfile
  cases hfile
  rw [hd] at hm
  exact nil_notMem_positions hm

theorem mem_filters (hf : (positions isFile 0 root.children)[i]? = some position)
    (hd : position.dropLast ≠ []) :
    ((addFiles p root).allFilters.flatMap Filter.files).count i = 1 ∧
    ∃ (m : Nat) (e : Element) (g : Filter),
      (positions isFilter 0 root.children)[m]? = some position.dropLast ∧
      root.descendant? position.dropLast = some e ∧ MadeFrom e g ∧
      (addFiles p root).allFilters[m]? = some g ∧ i ∈ g.files := by
  have hfolders := enumerates_positions isFilter root
  have hreach := mem_positions_iff_reaches.1 (List.mem_of_getElem? hf)
  have hm : position.dropLast ∈ positions isFilter 0 root.children :=
    (hfolders.mem_iff _).2 (hreach.dropLast hd)
  constructor
  · rw [numbers_addFiles]
    exact List.count_eq_one_of_mem (nodup_flatMap_filesIn hfolders.nodup)
      (mem_flatMap_filesIn.2 ⟨position, hf, hm⟩)
  · obtain ⟨m, hfolder⟩ := List.getElem?_of_mem hm
    obtain ⟨g, hg, hat⟩ := getElem?_of_forall₂ (tree_addFiles p root) hfolder
    obtain ⟨e, he, hmade⟩ := hat.made
    refine ⟨m, e, g, hfolder, (at_children_iff.1 he).2, hmade, hg, ?_⟩
    rw [hat.files_eq, mem_filesIn]
    exact ⟨Nat.zero_le i, position, hf, rfl⟩

theorem sum_fileCount_addFiles (p : Project) (root : Element) :
    ((addFiles p root).filters.map Filter.fileCount).sum + root.children.countP isFile =
      (addFiles p root).files.length := by
  have hfolders := enumerates_positions isFilter root
  have hnodup : ([] :: positions isFilter 0 root.children).Nodup :=
    List.nodup_cons.2 ⟨nil_notMem_positions, hfolders.nodup⟩
  have hall : ∀ file ∈ positions isFile 0 root.children,
      file.dropLast ∈ [] :: positions isFilter 0 root.children := by
    intro file hm
    by_cases hd : file.dropLast = []
    · exact List.mem_cons.2 (.inl hd)
    · exact List.mem_cons_of_mem _
        ((hfolders.mem_iff _).2 ((mem_positions_iff_reaches.1 hm).dropLast hd))
  have hcount := length_flatMap_filesIn hnodup hall
  rw [List.flatMap_cons, List.length_append, length_filesIn_top, ← numbers_addFiles p] at hcount
  rw [Filter.sum_map_fileCount, ← (files_addFiles p root).length_eq, ← hcount]
  exact Nat.add_comm _ _

/-- The list of files and the tree of filters of a listing agree. The files are the elements with a
path that are reached through filters alone, each once and in document order, and the filters of
the tree stand for the filters that are reached. A file directly below the root belongs to no
filter; every other one is held once in the whole tree, by the filter made from the element around
it, and names that filter. -/
theorem filters_hold_listed_files (p : Project) {root : Element} (hr : isFilter root = false) :
    ∃ files folders : List (List Nat),
      Enumerates isFile root files ∧
      Enumerates isFilter root folders ∧
      (Listing.files (filterName? root) (Listing.ofElements root.children)).map (some ·.2) =
        files.map root.descendant? ∧
      (addFiles p root).files.length = files.length ∧
      List.Forall₂ (fun folder g => ∃ e, root.descendant? folder = some e ∧ MadeFrom e g)
        folders (addFiles p root).allFilters ∧
      (∀ (i : Nat) (position : List Nat), files[i]? = some position → ∃ f e,
        (addFiles p root).files[i]? = some f ∧ root.descendant? position = some e ∧
        f.relativePath = e.attributeD "RelativePath" ∧
        (position.dropLast = [] → f.filter = none ∧
          i ∉ (addFiles p root).allFilters.flatMap Filter.files) ∧
        (position.dropLast ≠ [] →
          ((addFiles p root).allFilters.flatMap Filter.files).count i = 1 ∧
          ∃ (m : Nat) (g : Filter), folders[m]? = some position.dropLast ∧
            (addFiles p root).allFilters[m]? = some g ∧ i ∈ g.files ∧ f.filter = some g.name)) ∧
      ((addFiles p root).filters.map Filter.fileCount).sum + root.children.countP isFile =
        (addFiles p root).files.length := by
  have hfiles := files_addFiles p root
  refine ⟨positions isFile 0 root.children, positions isFilter 0 root.children,
    enumerates_positions isFile root, enumerates_positions isFilter root, ?_,
    hfiles.length_eq.symm, ?_, ?_, sum_fileCount_addFiles p root⟩
  · rw [← List.forall₂_eq_eq_eq, List.forall₂_map_left_iff, List.forall₂_map_right_iff]
    exact (listsFiles root (filterName? root)).flip.imp fun entry file hl =>
      (at_children_iff.1 hl.element).2.symm
  · refine (tree_addFiles p root).imp fun folder g hg => ?_
    obtain ⟨e, he, hm⟩ := hg.made
    exact ⟨e, (at_children_iff.1 he).2, hm⟩
  · intro i position hp
    obtain ⟨f, hf, hof⟩ := getElem?_of_forall₂ hfiles hp
    obtain ⟨e, he, hpath⟩ := hof.element
    refine ⟨f, e, hf, he, hpath, fun hd => ⟨?_, notMem_filters hp hd⟩, fun hd => ?_⟩
    · rw [hof.filter_top hd, filterName?, hr]
      rfl
    · obtain ⟨hcount, m, folder, g, hm, hfolder, hmade, hg, hi⟩ := mem_filters (p := p) hp hd
      refine ⟨hcount, m, g, hm, hg, hi, ?_⟩
      rw [hof.filter folder hd hfolder, hmade.name]

def nestedListing : Element :=
  { name := "Files"
    children :=
      [{ name := "Filter"
         attributes := [("Name", "Source"), ("Filter", "cpp")]
         children :=
          [{ name := "Filter", attributes := [("Name", "Detail")], children := [file "a.cc" []] },
           { name := "Filter", attributes := [("Name", "Empty")] },
           { name := "Folder", children := [file "lost.cc" []] },
           file "b.cc" [file "inner.cc" []]] },
       { name := "File", attributes := [("Path", "c.cc")] },
       file "d.cc" []] }
where
  file (path : String) (children : List Element) : Element :=
    { name := "File", attributes := [("RelativePath", path)], children }

theorem filters_hold_listed_files_nested :
    isFilter nestedListing = false ∧
    (addFiles {} nestedListing).files.map (fun f => (f.relativePath, f.filter)) =
      [("a.cc", some "Detail"), ("b.cc", some "Source"), ("d.cc", none)] ∧
    (addFiles {} nestedListing).allFilters.map (fun g => (g.name, g.files)) =
      [("Source", [1]), ("Detail", [0]), ("Empty", [])] ∧
    ∃ files, Enumerates isFile nestedListing files ∧
      files.map nestedListing.descendant? =
        [[0, 0, 0], [0, 3], [2]].map nestedListing.descendant? := by
  have hr : isFilter nestedListing = false := rfl
  obtain ⟨files, -, hfiles, -, hl, -⟩ := filters_hold_listed_files {} hr
  refine ⟨hr, by decide +kernel, ?_, files, hfiles, ?_⟩
  · have hlisting : Listing.ofElements nestedListing.children =
        [.filter "Source" (some "cpp")
          [.filter "Detail" none [.file (nestedListing.file "a.cc" [])], .filter "Empty" none [],
            .file (nestedListing.file "b.cc" [nestedListing.file "inner.cc" []])],
          .file (nestedListing.file "d.cc" [])] := rfl
    simp [Project.allFilters, addFiles, Listing.filters, hlisting, Listing.number, Filter.branch_eq]
  · rw [← hl]
    rfl

end Tree

end VisualStudio

end StudioMake
