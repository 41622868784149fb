import StudioMake.MSBuild.FilterTree
import StudioMake.Proofs.Sequences
import StudioMake.Proofs.Text.Pieces

/-!
# Paths to filters

A filter is reached by following the names along its path. Adding to the filter at a path keeps what
stands at every other path, and the names beside each other stay distinct, so each filter is reached
by one path.
-/

set_option autoImplicit false

namespace StudioMake

namespace MSBuild

def pathNames (path : String) : List String :=
  let names := Text.splitAll (· == '\\') path
  if 1 < names.length ∧ names.getLast? = some "" then names.dropLast else names

theorem pathNames_ofList (path : List Char) : pathNames (String.ofList path) =
    let pieces := Text.pieces (· == '\\') path
    (if 1 < pieces.length ∧ pieces.getLast? = some [] then pieces.dropLast else pieces).map
      String.ofList := by
  have hempty : ∀ piece : List Char, String.ofList piece = "" ↔ piece = [] := by
    intro piece
    rw [← String.toList_inj, String.toList_ofList]
    rfl
  have hlast : ((Text.pieces (· == '\\') path).map String.ofList).getLast? = some "" ↔
      (Text.pieces (· == '\\') path).getLast? = some [] := by
    rw [List.getLast?_map]
    simp only [Option.map_eq_some_iff, hempty, exists_eq_right]
  simp only [pathNames, Text.splitAll, String.toList_ofList, List.length_map, hlast,
    List.map_dropLast, apply_ite (List.map String.ofList)]

theorem eq_nil_of_pieces {p : Char → Bool} {l : List Char} (h : Text.pieces p l = [[]]) :
    l = [] := by
  cases l with
  | nil => rfl
  | cons c rest =>
    cases hc : p c with
    | true =>
      rw [Text.pieces, if_pos hc] at h
      exact absurd (List.cons.inj h).2 (Text.pieces_ne_nil p rest)
    | false =>
      obtain ⟨first, more, -, hp⟩ := Text.pieces_cons_of_not hc rest
      rw [hp] at h
      cases h

theorem namesFrom_eq (path : List Char) : namesFrom path = pathNames (String.ofList path) := by
  rw [pathNames_ofList]
  fun_induction namesFrom path with
  | case1 path h =>
    rw [Text.pieces_of_notMem (Text.cut?_eq_none_iff.1 h)]
    rfl
  | case2 path name rest h hlt hempty =>
    obtain ⟨rfl, hn⟩ := Text.eq_of_cut? h
    rw [Text.pieces_append (by decide), Text.pieces_of_notMem hn, List.isEmpty_iff.1 hempty]
    rfl
  | case3 path name rest h hlt hrest ih =>
    obtain ⟨rfl, hn⟩ := Text.eq_of_cut? h
    have hpieces : Text.pieces (· == '\\') rest ≠ [[]] :=
      fun hp => hrest (List.isEmpty_iff.2 (eq_nil_of_pieces hp))
    have hne := Text.pieces_ne_nil (· == '\\') rest
    rw [Text.pieces_append (by decide), Text.pieces_of_notMem hn, ih]
    generalize Text.pieces (· == '\\') rest = pieces at hpieces hne ⊢
    match pieces with
    | [] => exact absurd rfl hne
    | [piece] =>
      have hp : piece ≠ [] := by
        rintro rfl
        exact hpieces rfl
      simp [hp]
    | first :: next :: more =>
      by_cases hl : (next :: more).getLast? = some [] <;> simp [hl]

theorem filterSegments_eq (path : String) : filterSegments path = pathNames path := by
  rw [filterSegments, namesFrom_eq, String.ofList_toList]

theorem filterSegments_ne_nil (path : String) : filterSegments path ≠ [] := by
  rw [filterSegments, namesFrom]
  split
  · exact List.cons_ne_nil _ _
  · split
    · exact List.cons_ne_nil _ _
    · exact List.cons_ne_nil _ _

end MSBuild

namespace Filter

variable {filters : List Filter} {path : List String} {name : String} {g : Filter}

/-- The filter that a path leads to: below each name along it the first one of the next name. -/
def at? : List String → List Filter → Option Filter
  | [], _ => none
  | name :: rest, filters =>
    (filters.find? (·.name = name)).bind fun g =>
      if rest.isEmpty then some g else at? rest g.filters

theorem at?_singleton (name : String) (filters : List Filter) :
    at? [name] filters = filters.find? (·.name = name) := by
  simp [at?]

theorem at?_cons (name : String) {rest : List String} (h : rest ≠ []) (filters : List Filter) :
    at? (name :: rest) filters =
      (filters.find? (·.name = name)).bind fun g => at? rest g.filters := by
  simp [at?, h]

theorem at?_nil (path : List String) : at? path [] = none := by
  cases path <;> simp [at?]

theorem mem_of_find?_name (h : filters.find? (·.name = name) = some g) :
    g ∈ filters ∧ g.name = name :=
  ⟨List.mem_of_find?_eq_some h, by simpa using List.find?_some h⟩

theorem getLast?_of_at? (h : at? path filters = some g) : path.getLast? = some g.name := by
  induction path generalizing filters with
  | nil => cases h
  | cons name rest ih =>
    cases rest with
    | nil =>
      rw [at?_singleton] at h
      rw [(mem_of_find?_name h).2]
      rfl
    | cons next rest =>
      rw [at?_cons name (by simp)] at h
      obtain ⟨x, -, h⟩ := Option.bind_eq_some_iff.1 h
      rw [List.getLast?_cons_cons, ih h]

/-- The names beside each other are distinct, at the top and in every filter. -/
def Distinct (filters : List Filter) : Prop :=
  (filters.map Filter.name).Nodup ∧
    ∀ g ∈ filters.flatMap branch, (g.filters.map Filter.name).Nodup

theorem distinct_iff :
    Distinct filters ↔ (filters.map Filter.name).Nodup ∧ ∀ g ∈ filters, Distinct g.filters := by
  have hb : ∀ g : Filter,
      Distinct g.filters ↔ ∀ x ∈ g.branch, (x.filters.map Filter.name).Nodup := by
    intro g
    rw [branch_eq, List.forall_mem_cons]
    rfl
  simp only [hb]
  simp only [Distinct, List.mem_flatMap]
  constructor
  · rintro ⟨hn, h⟩
    exact ⟨hn, fun g hg x hx => h x ⟨g, hg, hx⟩⟩
  · rintro ⟨hn, h⟩
    exact ⟨hn, fun x ⟨g, hg, hx⟩ => h g hg x hx⟩

/-- The paths to a filter and to the filters below it, in the order of its branch. -/
def paths : Filter → List (List String)
  | ⟨name, _, _, filters⟩ => [name] :: (below filters).map (name :: ·)
where
  below : List Filter → List (List String)
    | [] => []
    | g :: rest => paths g ++ below rest

theorem below_eq (filters : List Filter) : paths.below filters = filters.flatMap paths := by
  induction filters with
  | nil => rfl
  | cons g rest ih => rw [paths.below, ih, List.flatMap_cons]

theorem paths_eq (g : Filter) :
    g.paths = [g.name] :: (g.filters.flatMap paths).map (g.name :: ·) := by
  rw [← below_eq]
  cases g
  rw [paths]

theorem induction_filters {motive : List Filter → Prop} (nil : motive [])
    (cons : ∀ g rest, motive g.filters → motive rest → motive (g :: rest)) :
    ∀ filters, motive filters
  | [] => nil
  | ⟨name, extensions, files, filters⟩ :: rest =>
    cons _ rest (induction_filters nil cons filters) (induction_filters nil cons rest)

theorem paths_cons_below (g : Filter) (rest : List Filter) :
    (g :: rest).flatMap paths =
      [g.name] :: ((g.filters.flatMap paths).map (g.name :: ·) ++ rest.flatMap paths) := by
  rw [List.flatMap_cons, paths_eq, List.cons_append]

theorem exists_cons_of_mem_paths (h : path ∈ filters.flatMap paths) :
    ∃ g ∈ filters, ∃ rest, path = g.name :: rest := by
  obtain ⟨g, hg, hp⟩ := List.mem_flatMap.1 h
  rw [paths_eq, List.mem_cons, List.mem_map] at hp
  rcases hp with rfl | ⟨rest, -, rfl⟩
  · exact ⟨g, hg, [], rfl⟩
  · exact ⟨g, hg, rest, rfl⟩

theorem ne_nil_of_mem_paths (h : path ∈ filters.flatMap paths) : path ≠ [] := by
  obtain ⟨g, -, rest, rfl⟩ := exists_cons_of_mem_paths h
  exact List.cons_ne_nil _ _

section Enumeration

theorem exists_cons_of_at? (h : at? path filters = some g) :
    ∃ x ∈ filters, ∃ rest, path = x.name :: rest := by
  cases path with
  | nil => cases h
  | cons name rest =>
    obtain ⟨x, hx, -⟩ := Option.bind_eq_some_iff.1 h
    obtain ⟨hm, rfl⟩ := mem_of_find?_name hx
    exact ⟨x, hm, rest, rfl⟩

theorem at?_cons_self {rest : List String} (h : rest ≠ []) (g : Filter) (filters : List Filter) :
    at? (g.name :: rest) (g :: filters) = at? rest g.filters := by
  rw [at?_cons _ h, List.find?_cons_of_pos (by simp), Option.bind_some]

theorem at?_cons_of_ne {rest : List String} (h : g.name ≠ name) (filters : List Filter) :
    at? (name :: rest) (g :: filters) = at? (name :: rest) filters := by
  rw [at?, at?, List.find?_cons_of_neg (by simpa using h)]

theorem forall₂_paths (h : Distinct filters) :
    List.Forall₂ (fun path g => at? path filters = some g) (filters.flatMap paths)
      (filters.flatMap branch) := by
  induction filters using induction_filters with
  | nil => exact .nil
  | cons g rest ihg ihrest =>
    obtain ⟨hn, hd⟩ := distinct_iff.1 h
    rw [List.map_cons, List.nodup_cons] at hn
    obtain ⟨hg, hrest⟩ := List.forall_mem_cons.1 hd
    rw [paths_cons_below, List.flatMap_cons, branch_eq, List.cons_append]
    refine .cons ?_ (List.rel_append ?_ ?_)
    · rw [at?_singleton, List.find?_cons_of_pos (by simp)]
    · rw [List.forall₂_map_left_iff]
      refine (ihg hg).imp fun path x hx => ?_
      obtain ⟨y, -, tail, rfl⟩ := exists_cons_of_at? hx
      rw [at?_cons_self (List.cons_ne_nil _ _), hx]
    · refine (ihrest (distinct_iff.2 ⟨hn.2, hrest⟩)).imp fun path x hx => ?_
      obtain ⟨y, hy, tail, rfl⟩ := exists_cons_of_at? hx
      have hne : g.name ≠ y.name := fun he => hn.1 (he ▸ List.mem_map_of_mem hy)
      rw [at?_cons_of_ne hne, hx]

theorem nodup_paths (h : Distinct filters) : (filters.flatMap paths).Nodup := by
  induction filters using induction_filters with
  | nil => exact List.nodup_nil
  | cons g rest ihg ihrest =>
    obtain ⟨hn, hd⟩ := distinct_iff.1 h
    rw [List.map_cons, List.nodup_cons] at hn
    obtain ⟨hg, hrest⟩ := List.forall_mem_cons.1 hd
    have hfirst : ∀ path tail, path ∈ rest.flatMap paths → path ≠ g.name :: tail := by
      rintro path tail hp rfl
      obtain ⟨y, hy, _, he⟩ := exists_cons_of_mem_paths hp
      exact hn.1 ((List.cons.inj he).1 ▸ List.mem_map_of_mem hy)
    rw [paths_cons_below, List.nodup_cons, List.mem_append, not_or, List.nodup_append]
    refine ⟨⟨?_, fun hp => hfirst _ [] hp rfl⟩, ?_, ?_, ?_⟩
    · intro hp
      obtain ⟨tail, ht, he⟩ := List.mem_map.1 hp
      exact ne_nil_of_mem_paths ht (List.cons.inj he).2
    · exact (ihg hg).map fun _ _ he => (List.cons.inj he).2
    · exact ihrest (distinct_iff.2 ⟨hn.2, hrest⟩)
    · rintro path hp path' hp' rfl
      obtain ⟨tail, -, rfl⟩ := List.mem_map.1 hp
      exact hfirst _ tail hp' rfl

theorem mem_paths_of_at? (h : at? path filters = some g) : path ∈ filters.flatMap paths := by
  induction path generalizing filters with
  | nil => cases h
  | cons name rest ih =>
    obtain ⟨x, hx, hrest⟩ := Option.bind_eq_some_iff.1 h
    obtain ⟨hm, rfl⟩ := mem_of_find?_name hx
    refine List.mem_flatMap.2 ⟨x, hm, ?_⟩
    rw [paths_eq]
    cases rest with
    | nil => exact List.mem_cons_self
    | cons next rest => exact List.mem_cons_of_mem _ (List.mem_map_of_mem (ih hrest))

theorem mem_paths_iff (h : Distinct filters) :
    path ∈ filters.flatMap paths ↔ (at? path filters).isSome = true := by
  constructor
  · intro hp
    obtain ⟨i, hi⟩ := List.mem_iff_getElem?.1 hp
    obtain ⟨g, -, hg⟩ := getElem?_of_forall₂ (forall₂_paths h) hi
    rw [hg]
    rfl
  · intro hs
    obtain ⟨g, hg⟩ := Option.isSome_iff_exists.1 hs
    exact mem_paths_of_at? hg

end Enumeration

section Content

structure Content where
  extensions : Option String := none
  files : List Nat := []

def content (g : Filter) : Content := ⟨g.extensions, g.files⟩

/-- The content of the filter that a path leads to. -/
def contentAt? (path : List String) (filters : List Filter) : Option Content :=
  (at? path filters).map content

theorem contentAt?_singleton (name : String) (filters : List Filter) :
    contentAt? [name] filters = (filters.find? (·.name = name)).map content := by
  rw [contentAt?, at?_singleton]

theorem contentAt?_cons (name : String) {rest : List String} (h : rest ≠ [])
    (filters : List Filter) : contentAt? (name :: rest) filters =
      contentAt? rest ((filters.find? (·.name = name)).getD { name }).filters := by
  rw [contentAt?, at?_cons name h]
  cases filters.find? (·.name = name) with
  | none => rw [Option.getD_none, contentAt?, at?_nil]; rfl
  | some g => rfl

def contentAt (path : List String) (filters : List Filter) : Content :=
  (contentAt? path filters).getD {}

theorem contentAt_nil (path : List String) : contentAt path [] = {} := by
  rw [contentAt, contentAt?, at?_nil]
  rfl

theorem contentAt_of_at? (h : at? path filters = some g) : contentAt path filters = g.content := by
  rw [contentAt, contentAt?, h]
  rfl

theorem content_getD (x : Option Filter) (name : String) :
    content (x.getD { name }) = (x.map content).getD {} := by
  cases x <;> rfl

end Content

section Files

def allFiles (filters : List Filter) : List Nat := (filters.flatMap branch).flatMap files

theorem allFiles_cons (g : Filter) (rest : List Filter) :
    allFiles (g :: rest) = allFiles [g] ++ allFiles rest := by
  simp [allFiles]

theorem allFiles_singleton (g : Filter) : allFiles [g] = g.files ++ allFiles g.filters := by
  simp [allFiles, branch_eq]

end Files

end Filter

namespace MSBuild

variable {f : Filter → Filter} {name : String} {filters : List Filter} {path segments : List String}

section Names

variable (hname : ∀ g, (f g).name = g.name)

include hname

theorem map_name_alterFilter : (alterFilter name f filters).map Filter.name =
    if name ∈ filters.map Filter.name then filters.map Filter.name
    else filters.map Filter.name ++ [name] := by
  induction filters with
  | nil => simp [alterFilter, hname]
  | cons g rest ih =>
    by_cases h : g.name = name
    · simp [alterFilter, h, hname]
    · have hne : name ≠ g.name := Ne.symm h
      by_cases hm : name ∈ rest.map Filter.name
      · rw [if_pos hm] at ih
        simp only [alterFilter, h, if_false, List.map_cons, ih, List.mem_cons, hm, or_true, if_true]
      · rw [if_neg hm] at ih
        simp [alterFilter, h, ih, hne, hm]

theorem find?_alterFilter (name other : String) (filters : List Filter) :
    (alterFilter name f filters).find? (·.name = other) =
      if name = other then some (f ((filters.find? (·.name = name)).getD { name }))
      else filters.find? (·.name = other) := by
  induction filters with
  | nil => by_cases h : name = other <;> simp [alterFilter, hname, h]
  | cons g rest ih =>
    by_cases hg : g.name = name
    · subst hg
      by_cases h : g.name = other <;> simp [alterFilter, hname, h]
    · by_cases hgo : g.name = other
      · subst hgo
        simp [alterFilter, hg, Ne.symm hg]
      · simp [alterFilter, hg, hgo, ih]

end Names

theorem mem_alterFilter {g : Filter} (h : g ∈ alterFilter name f filters) :
    g ∈ filters ∨ ∃ x, (x ∈ filters ∨ x = { name }) ∧ g = f x := by
  induction filters with
  | nil =>
    refine .inr ⟨{ name }, .inr rfl, ?_⟩
    simpa [alterFilter] using h
  | cons x rest ih =>
    unfold alterFilter at h
    split at h
    · rcases List.mem_cons.1 h with rfl | h
      · exact .inr ⟨x, .inl List.mem_cons_self, rfl⟩
      · exact .inl (List.mem_cons_of_mem x h)
    · rcases List.mem_cons.1 h with rfl | h
      · exact .inl List.mem_cons_self
      · rcases ih h with h | ⟨y, hy, rfl⟩
        · exact .inl (List.mem_cons_of_mem x h)
        · exact .inr ⟨y, hy.imp (List.mem_cons_of_mem x) id, rfl⟩

theorem distinct_alterFilter (hname : ∀ g, (f g).name = g.name)
    (hf : ∀ g : Filter, Filter.Distinct g.filters → Filter.Distinct (f g).filters)
    (h : Filter.Distinct filters) : Filter.Distinct (alterFilter name f filters) := by
  obtain ⟨hn, hd⟩ := Filter.distinct_iff.1 h
  refine Filter.distinct_iff.2 ⟨?_, fun g hg => ?_⟩
  · rw [map_name_alterFilter hname]
    split
    · exact hn
    · next hm => exact List.Nodup.append hn (List.nodup_singleton name) (by simpa using hm)
  · rcases mem_alterFilter hg with hg | ⟨x, hx | rfl, rfl⟩
    · exact hd g hg
    · exact hf x (hd x hx)
    · exact hf _ (Filter.distinct_iff.2 ⟨List.nodup_nil, by simp⟩)

theorem distinct_alterFilterAt (hname : ∀ g, (f g).name = g.name)
    (hf : ∀ g, (f g).filters = g.filters) (h : Filter.Distinct filters) (segments : List String) :
    Filter.Distinct (alterFilterAt f segments filters) := by
  induction segments generalizing filters with
  | nil => exact h
  | cons name rest ih =>
    cases rest with
    | nil => exact distinct_alterFilter hname (fun g hg => by rwa [hf]) h
    | cons next rest => exact distinct_alterFilter (fun _ => rfl) (fun g hg => ih hg) h

section Content

open StudioMake.Filter

/-- A change at a path makes sure that there is a filter at the path and at each one on the way to
it. It changes what stands at the path and nothing else. -/
theorem contentAt?_alterFilterAt (change : Content → Content) (hname : ∀ g, (f g).name = g.name)
    (hf : ∀ g, (f g).filters = g.filters) (hc : ∀ g, content (f g) = change (content g))
    (hs : segments ≠ []) (path : List String) (filters : List Filter) :
    contentAt? path (alterFilterAt f segments filters) =
      if path = segments then some (change ((contentAt? path filters).getD {}))
      else if path <+: segments ∧ path ≠ [] then some ((contentAt? path filters).getD {})
      else contentAt? path filters := by
  induction segments generalizing path filters with
  | nil => exact absurd rfl hs
  | cons name rest ih =>
    cases path with
    | nil => simp [contentAt?, Filter.at?]
    | cons n tail =>
      cases rest with
      | nil =>
        have hfind := find?_alterFilter hname name n filters
        rw [alterFilterAt]
        by_cases hn : name = n
        · subst hn
          rw [if_pos rfl] at hfind
          cases tail with
          | nil => simp [contentAt?_singleton, hfind, hc, content_getD]
          | cons next tail => simp [contentAt?_cons, hfind, hf]
        · rw [if_neg hn] at hfind
          cases tail with
          | nil => simp [contentAt?_singleton, hfind, Ne.symm hn]
          | cons next tail => simp [contentAt?_cons, hfind]
      | cons next rest =>
        have hfind := find?_alterFilter
          (f := fun x => { x with filters := alterFilterAt f (next :: rest) x.filters })
          (fun _ => rfl) name n filters
        have hat : alterFilterAt f (name :: next :: rest) filters = alterFilter name
            (fun x => { x with filters := alterFilterAt f (next :: rest) x.filters }) filters := rfl
        rw [hat]
        by_cases hn : name = n
        · subst hn
          rw [if_pos rfl] at hfind
          cases tail with
          | nil =>
            rw [contentAt?_singleton, contentAt?_singleton, hfind, ← content_getD _ name]
            simp [content]
          | cons m tail =>
            rw [contentAt?_cons name (List.cons_ne_nil m tail), hfind, Option.getD_some,
              ih (List.cons_ne_nil next rest), ← contentAt?_cons name (List.cons_ne_nil m tail)]
            simp [List.cons_prefix_cons]
        · rw [if_neg hn] at hfind
          cases tail with
          | nil => simp [contentAt?_singleton, hfind, Ne.symm hn]
          | cons m tail => simp [contentAt?_cons, hfind, Ne.symm hn]

end Content

section Files

open StudioMake.Filter

variable {added : List Nat}

theorem perm_alterFilter (hf : ∀ g, (allFiles [f g]).Perm (allFiles [g] ++ added)) :
    (allFiles (alterFilter name f filters)).Perm (allFiles filters ++ added) := by
  induction filters with
  | nil => exact hf { name }
  | cons g rest ih =>
    rw [alterFilter, allFiles_cons g]
    split
    · rw [allFiles_cons (f g), List.append_assoc]
      refine ((hf g).append_right _).trans ?_
      rw [List.append_assoc]
      exact List.perm_append_comm.append_left _
    · rw [allFiles_cons g, List.append_assoc]
      exact ih.append_left _

/-- A change at a path that adds entries adds them to the entries of all filters. -/
theorem perm_alterFilterAt (hfiles : ∀ g, (f g).files = g.files ++ added)
    (hf : ∀ g, (f g).filters = g.filters) (hs : segments ≠ []) (filters : List Filter) :
    (allFiles (alterFilterAt f segments filters)).Perm (allFiles filters ++ added) := by
  induction segments generalizing filters with
  | nil => exact absurd rfl hs
  | cons name rest ih =>
    cases rest with
    | nil =>
      refine perm_alterFilter fun g => ?_
      rw [allFiles_singleton, allFiles_singleton, hfiles, hf, List.append_assoc, List.append_assoc]
      exact List.perm_append_comm.append_left _
    | cons next rest =>
      refine perm_alterFilter fun g => ?_
      rw [allFiles_singleton, allFiles_singleton, List.append_assoc]
      exact (ih (List.cons_ne_nil next rest) g.filters).append_left _

end Files

end MSBuild

end StudioMake
