import StudioMake.Text.Split

/-!
# Texts between separators

A text without the separator is one piece. Texts that are joined with it are found again, and none
of the pieces of a text holds it.
-/

set_option autoImplicit false

namespace StudioMake.Text

variable {c : Char}

theorem pieces_of_notMem {l : List Char} (h : c ∉ l) : pieces (· == c) l = [l] := by
  refine pieces_of_not fun x hx => ?_
  rw [beq_eq_false_iff_ne]
  rintro rfl
  exact h hx

theorem splitAll_of_notMem {s : String} (h : c ∉ s.toList) : splitAll (· == c) s = [s] := by
  rw [splitAll, pieces_of_notMem h, List.map_singleton, String.ofList_toList]

theorem notMem_of_mem_splitAll {s text : String} (h : s ∈ splitAll (· == c) text) :
    c ∉ s.toList := by
  obtain ⟨piece, hpiece, rfl⟩ := List.mem_map.1 h
  rw [String.toList_ofList]
  intro hm
  have hc := not_of_mem_pieces hpiece c hm
  rw [beq_self_eq_true] at hc
  cases hc

theorem pieces_induction {motive : List Char → Prop} (last : ∀ piece, c ∉ piece → motive piece)
    (cons : ∀ piece rest, c ∉ piece → motive rest → motive (piece ++ c :: rest)) (l : List Char) :
    motive l := by
  cases h : cut? c l with
  | none => exact last l (cut?_eq_none_iff.1 h)
  | some parts =>
    have hlength := length_of_cut? h
    obtain ⟨hl, hpiece⟩ := eq_of_cut? h
    rw [hl]
    exact cons parts.1 parts.2 hpiece (pieces_induction last cons parts.2)
termination_by l.length

section Joined

variable {sep : String}

theorem splitAll_append (hsep : sep.toList = [c]) (a b : String) :
    splitAll (· == c) (a ++ sep ++ b) = splitAll (· == c) a ++ splitAll (· == c) b := by
  have hl : (a ++ sep ++ b).toList = a.toList ++ c :: b.toList := by simp [hsep]
  rw [splitAll, hl, pieces_append (by simp), List.map_append]
  rfl

theorem splitAll_intercalate (hsep : sep.toList = [c]) {l : List String}
    (h : ∀ s ∈ l, c ∉ s.toList) (hl : l ≠ []) : splitAll (· == c) (sep.intercalate l) = l := by
  induction l with
  | nil => exact absurd rfl hl
  | cons s rest ih =>
    obtain ⟨hs, hrest⟩ := List.forall_mem_cons.1 h
    cases rest with
    | nil => rw [String.intercalate_singleton, splitAll_of_notMem hs]
    | cons next rest =>
      rw [String.intercalate_cons_cons, splitAll_append hsep, ih hrest (List.cons_ne_nil _ _),
        splitAll_of_notMem hs, List.singleton_append]

end Joined

end StudioMake.Text
