import StudioMake.Proofs.Path.LexicalForm
import StudioMake.Proofs.Path.Resolution
import StudioMake.Proofs.Text.Entries

/-!
# Resolving in two steps

A resolved path is written so that it reads as itself: whatever it has kept of its climbs stands at
the front again, and none of its names is empty, a dot, or holds a slash. So a path can be resolved
as far as some directory first, and from there in a second step.
-/

set_option autoImplicit false

namespace StudioMake

structure IsSegment (s : String) : Prop where
  ne_empty : s ≠ ""
  ne_here : s ≠ "."
  no_slash : '/' ∉ s.toList

namespace Path

theorem isSegment_of_mem {path s : String} (h : s ∈ segments path) : IsSegment s := by
  obtain ⟨hm, hs⟩ := List.mem_filter.1 h
  simp only [Bool.and_eq_true, decide_eq_true_eq] at hs
  exact ⟨hs.1, hs.2, Text.notMem_of_mem_splitAll hm⟩

theorem splitAll_intercalate {l : List String} (h : ∀ s ∈ l, IsSegment s) (hl : l ≠ []) :
    Text.splitAll (· == '/') ("/".intercalate l) = l :=
  Text.splitAll_intercalate toList_slash (fun s hs => (h s hs).no_slash) hl

theorem here_notMem_intercalate {l : List String} (h : ∀ s ∈ l, IsSegment s) :
    "." ∉ Text.splitAll (· == '/') ("/".intercalate l) := by
  by_cases hl : l = []
  · rw [hl]
    decide
  · rw [splitAll_intercalate h hl]
    exact fun hm => (h "." hm).ne_here rfl

theorem segments_intercalate {l : List String} (h : ∀ s ∈ l, IsSegment s) :
    segments ("/".intercalate l) = l := by
  by_cases hl : l = []
  · rw [hl]
    exact segments_empty
  · rw [segments, splitAll_intercalate h hl, List.filter_eq_self]
    intro s hs
    simp [(h s hs).ne_empty, (h s hs).ne_here]

theorem isAbsolute_intercalate {l : List String} (h : ∀ s ∈ l, IsSegment s) :
    isAbsolute ("/".intercalate l) = false := by
  cases l with
  | nil => decide
  | cons s rest =>
    have hs := h s List.mem_cons_self
    have hfront : isAbsolute ("/".intercalate (s :: rest)) = isAbsolute s := by
      cases rest with
      | nil => rw [String.intercalate_singleton]
      | cons next rest =>
        rw [String.intercalate_cons_cons]
        exact isAbsolute_slash hs.ne_empty _
    rw [hfront, isAbsolute, beq_eq_false_iff_ne]
    intro hhead
    exact hs.no_slash (List.mem_of_head? hhead)

theorem slashes_append (a b : String) : slashes (a ++ b) = slashes a ++ slashes b := by
  simp [slashes]

theorem join_slash (base b : String) {a : String} (ha : a ≠ "") :
    join base (a ++ "/" ++ b) = join base a ++ "/" ++ b := by
  unfold join
  rw [isAbsolute_slash ha]
  split
  · rfl
  · split <;> simp only [String.append_assoc]

theorem join_ne_empty (base : String) {path : String} (h : path ≠ "") : join base path ≠ "" := by
  unfold join
  split
  · exact h
  · split <;> simp [h]

end Path

namespace NormalPath

open StudioMake.Path

theorem ofPath_slash {path : String} (h : path ≠ "") (rest : String) :
    ofPath (path ++ "/" ++ rest) = (Path.segments rest).foldl follow (ofPath path) := by
  rw [ofPath, segments_slash, isAbsolute_slash h, List.foldl_append, ofPath]

section Written

variable {p : NormalPath}

/-- The names of a path are segments that do not lead upwards. -/
def Proper (p : NormalPath) : Prop := ∀ name ∈ p.names, IsSegment name ∧ name ≠ ".."

theorem Proper.follow (h : p.Proper) {s : String} (hs : IsSegment s) : (p.follow s).Proper := by
  unfold NormalPath.follow
  split
  · split
    · exact h
    · exact fun name hm => h name (List.dropLast_subset _ hm)
  · next hclimb =>
    intro name hm
    rcases List.mem_append.1 hm with hm | hm
    · exact h name hm
    · rw [List.mem_singleton.1 hm]
      exact ⟨hs, hclimb⟩

theorem proper_foldl_follow (h : p.Proper) {l : List String} (hl : ∀ s ∈ l, IsSegment s) :
    (l.foldl NormalPath.follow p).Proper := by
  induction l generalizing p with
  | nil => exact h
  | cons s rest ih =>
    obtain ⟨hs, hrest⟩ := List.forall_mem_cons.1 hl
    exact ih (h.follow hs) hrest

theorem proper_ofPath (path : String) : (ofPath path).Proper := by
  refine proper_foldl_follow ?_ fun s hs => isSegment_of_mem hs
  intro name hm
  cases hm

theorem Proper.isSegment (h : p.Proper) {s : String} (hs : s ∈ p.segments) : IsSegment s := by
  rcases List.mem_append.1 hs with hs | hs
  · split at hs
    · rw [List.mem_singleton.1 hs]
      exact ⟨by decide, by decide, by decide⟩
    · cases hs
  · exact (h s hs).1

theorem foldl_follow_names {l : List String} (h : ∀ name ∈ l, name ≠ "..") (p : NormalPath) :
    l.foldl follow p = { p with names := p.names ++ l } := by
  induction l generalizing p with
  | nil => simp
  | cons name rest ih =>
    obtain ⟨hname, hrest⟩ := List.forall_mem_cons.1 h
    rw [List.foldl_cons, ih hrest, NormalPath.follow, if_neg hname]
    simp

theorem Proper.foldl_follow_segments (h : p.Proper) :
    p.segments.foldl NormalPath.follow { rooted := p.rooted } = p := by
  have hnames := foldl_follow_names fun name hm => (h name hm).2
  obtain ⟨rooted, climbs, names⟩ := p
  cases climbs with
  | false => exact hnames { rooted := rooted }
  | true => exact hnames { rooted := rooted, climbs := true }

theorem toString_eq (p : NormalPath) : p.toString =
    if p.rooted then "" ++ "/" ++ "/".intercalate p.segments else "/".intercalate p.segments := by
  unfold NormalPath.toString
  split <;> simp

theorem Proper.segments_toString (h : p.Proper) : Path.segments p.toString = p.segments := by
  have hrest := segments_intercalate fun s hs => h.isSegment hs
  rw [toString_eq]
  split
  · rw [segments_slash, segments_empty, hrest, List.nil_append]
  · exact hrest

theorem Proper.isAbsolute_toString (h : p.Proper) : isAbsolute p.toString = p.rooted := by
  have hrest := isAbsolute_intercalate fun s hs => h.isSegment hs
  rw [toString_eq]
  split
  · next hroot => simp [isAbsolute, hroot]
  · next hroot => rw [hrest, Bool.eq_false_iff.2 hroot]

/-- A path is read as what it was written from. -/
theorem Proper.ofPath_toString (h : p.Proper) : ofPath p.toString = p := by
  rw [ofPath, h.segments_toString, h.isAbsolute_toString, h.foldl_follow_segments]

theorem Proper.here_notMem (h : p.Proper) : "." ∉ Text.splitAll (· == '/') p.toString := by
  have hrest := here_notMem_intercalate fun s hs => h.isSegment hs
  rw [toString_eq]
  split
  · rw [Text.splitAll_append toList_slash, List.mem_append, not_or]
    exact ⟨by decide, hrest⟩
  · exact hrest

end Written

theorem isAbsolute_slashes (s : String) :
    isAbsolute (slashes s) = s.toList.head?.any isSeparator := by
  rw [isAbsolute, slashes, String.toList_ofList, List.head?_map]
  cases s.toList.head? with
  | none => rfl
  | some c =>
    by_cases hc : c = '\\'
    · rw [hc]
      decide
    · simp [hc, isSeparator]

section Steps

variable {x y : String}

theorem trim_slash (hx : Text.trim x = x) (hy : Text.trim y = y) :
    Text.trim (x ++ "/" ++ y) = x ++ "/" ++ y := by
  have hslash : Text.isBlank '/' = false := by decide
  have hl : (x ++ "/" ++ y).toList = x.toList ++ '/' :: y.toList := by simp
  rw [← String.toList_inj, Text.toList_trim, hl, Text.dropWhile_append_cons hslash,
    Text.dropEndWhile_append_cons hslash, Text.dropWhile_of_trim hx, Text.dropEndWhile_of_trim hy]

theorem resolve_slash (base : String) (hx : Text.trim x = x) (hy : Text.trim y = y) (hne : x ≠ "") :
    resolve base (x ++ "/" ++ y) = (Path.segments (slashes y)).foldl follow (resolve base x) := by
  have hslash : slashes "/" = "/" := by decide
  have hne' : slashes x ≠ "" := by
    intro h
    have hmap := congrArg String.toList h
    rw [slashes, String.toList_ofList] at hmap
    exact hne (String.toList_eq_nil_iff.1 (List.map_eq_nil_iff.1 hmap))
  rw [resolve, trim_slash hx hy, slashes_append, slashes_append, hslash, join_slash base _ hne',
    ofPath_slash (join_ne_empty base hne'), resolve, hx]

/-- A path can be resolved in two steps, the second from where the first one leads, however often
either of them climbs. What comes of it has no segment that stays in place, and starts at the root
exactly if the path that is resolved does. -/
theorem resolve_in_two_steps (base : String) :
    (∀ x y : String, Text.trim x = x → Text.trim y = y → x ≠ "" →
      y.toList.head?.any isSeparator = false →
        resolve (resolve base x).toString y = resolve base (x ++ "/" ++ y)) ∧
    ∀ text : String,
      "." ∉ Text.splitAll (· == '/') (resolve base text).toString ∧
      isAbsolute (resolve base text).toString = isAbsolute (joined base text) := by
  have hproper : ∀ text, (resolve base text).Proper := fun text => proper_ofPath _
  constructor
  · intro x y hx hy hne hrelative
    rw [resolve_slash base hx hy hne, resolve, hy, ofPath_join, (hproper x).ofPath_toString]
    rw [isAbsolute_slashes, hrelative]
  · intro text
    refine ⟨(hproper text).here_notMem, ?_⟩
    rw [(hproper text).isAbsolute_toString]
    exact rooted_ofPath _

theorem resolve_in_two_steps_climbing :
    (resolve "/a" "..\\./../ b").toString = "/../ b" ∧
    resolve (resolve "/a" "..\\./../ b").toString "../..//c/." =
      resolve "/a" ("..\\./../ b" ++ "/" ++ "../..//c/.") ∧
    (resolve "/a" ("..\\./../ b" ++ "/" ++ "../..//c/.")).toString = "/c" :=
  ⟨by decide +kernel, (resolve_in_two_steps "/a").1 "..\\./../ b" "../..//c/." (by decide +kernel)
    (by decide +kernel) (by decide) (by decide), by decide +kernel⟩

end Steps

end NormalPath

end StudioMake
