import StudioMake.Path.Normal
import StudioMake.Proofs.Text.Pieces

/-!
# Resolving against a directory

A relative path goes on from its base segment by segment. So it is resolved alike against any two
bases that lead to the same place.
-/

set_option autoImplicit false

namespace StudioMake

namespace Path

theorem toList_slash : "/".toList = ['/'] := rfl

theorem segments_slash (a b : String) : segments (a ++ "/" ++ b) = segments a ++ segments b := by
  rw [segments, Text.splitAll_append toList_slash, List.filter_append]
  rfl

theorem segments_empty : segments "" = [] := by decide

theorem isAbsolute_append {base : String} (h : base ≠ "") (path : String) :
    isAbsolute (base ++ path) = isAbsolute base := by
  cases hl : base.toList with
  | nil => exact absurd (String.toList_eq_nil_iff.1 hl) h
  | cons c rest => simp [isAbsolute, hl]

theorem isAbsolute_slash {base : String} (h : base ≠ "") (path : String) :
    isAbsolute (base ++ "/" ++ path) = isAbsolute base := by
  rw [String.append_assoc]
  exact isAbsolute_append h _

theorem segments_join (base : String) {path : String} (h : isAbsolute path = false) :
    segments (join base path) = segments base ++ segments path := by
  unfold join
  rw [h, if_neg Bool.false_ne_true]
  by_cases he : base = ""
  · simp [he, segments_empty]
  · by_cases hs : endsInSlash base = true
    · obtain ⟨init, hi⟩ := List.getLast?_eq_some_iff.1 (eq_of_beq hs)
      have hb : base = String.ofList init ++ "/" ++ "" := by simp [← String.toList_inj, hi]
      rw [if_pos (by simp [hs]), hb, String.append_empty, segments_slash,
        ← String.append_empty (s := String.ofList init ++ "/"), segments_slash, segments_empty,
        List.append_nil]
    · rw [if_neg (by simp [he, hs]), segments_slash]

theorem isAbsolute_join (base : String) {path : String} (h : isAbsolute path = false) :
    isAbsolute (join base path) = isAbsolute base := by
  unfold join
  rw [h, if_neg Bool.false_ne_true]
  by_cases he : base = ""
  · simp only [he, decide_true, Bool.true_or, if_true, String.empty_append, h]
    rfl
  · split
    · exact isAbsolute_append he path
    · exact isAbsolute_slash he path

end Path

namespace NormalPath

theorem ofPath_join (base : String) {path : String} (h : Path.isAbsolute path = false) :
    ofPath (Path.join base path) = (Path.segments path).foldl follow (ofPath base) := by
  rw [ofPath, Path.segments_join base h, Path.isAbsolute_join base h, List.foldl_append, ofPath]

theorem resolve_congr {base base' : String} (h : ofPath base = ofPath base') (text : String) :
    resolve base text = resolve base' text := by
  unfold resolve
  generalize Path.slashes (Text.trim text) = path
  cases hp : Path.isAbsolute path with
  | true => simp only [Path.join, hp, if_true]
  | false => rw [ofPath_join base hp, ofPath_join base' hp, h]

end NormalPath

end StudioMake
