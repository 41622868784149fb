import StudioMake.Text.Blank

/-!
# Cutting a text at separators

`cut?` and `cutLast?` cut once, at the first or the last separator; `pieces` cuts everywhere.
Each result joined again with its separators is the text that was cut.
-/

set_option autoImplicit false

namespace StudioMake.Text

def cut? (sep : Char) : List Char → Option (List Char × List Char)
  | [] => none
  | c :: rest => if c = sep then some ([], rest) else (cut? sep rest).map fun (a, b) => (c :: a, b)

theorem eq_of_cut? {sep : Char} {l a b : List Char} (h : cut? sep l = some (a, b)) :
    l = a ++ sep :: b ∧ sep ∉ a := by
  induction l generalizing a with
  | nil => simp [cut?] at h
  | cons c rest ih =>
    rw [cut?] at h
    split at h
    · next hc => cases h; simp [hc]
    · next hc =>
      obtain ⟨⟨a', b'⟩, ht, he⟩ := Option.map_eq_some_iff.1 h
      cases he
      obtain ⟨rfl, hn⟩ := ih ht
      exact ⟨rfl, by simp [hn, Ne.symm hc]⟩

theorem cut?_append {sep : Char} {a : List Char} (h : sep ∉ a) (b : List Char) :
    cut? sep (a ++ sep :: b) = some (a, b) := by
  induction a with
  | nil => simp [cut?]
  | cons c rest ih =>
    simp only [List.mem_cons, not_or] at h
    simp [cut?, Ne.symm h.1, ih h.2]

theorem cut?_eq_none_iff {sep : Char} {l : List Char} : cut? sep l = none ↔ sep ∉ l := by
  induction l with
  | nil => simp [cut?]
  | cons c rest ih =>
    by_cases h : c = sep
    · simp [cut?, h]
    · simp [cut?, h, ih, Ne.symm h]

theorem length_of_cut? {sep : Char} {l a b : List Char} (h : cut? sep l = some (a, b)) :
    b.length < l.length := by
  rw [(eq_of_cut? h).1]; simp; omega

def cutLast? (sep : Char) : List Char → Option (List Char × List Char)
  | [] => none
  | c :: rest =>
    match cutLast? sep rest with
    | some (a, b) => some (c :: a, b)
    | none => if c = sep then some ([], rest) else none

theorem cutLast?_eq_none_iff {sep : Char} {l : List Char} : cutLast? sep l = none ↔ sep ∉ l := by
  induction l with
  | nil => simp [cutLast?]
  | cons c rest ih =>
    rw [cutLast?]
    cases h : cutLast? sep rest with
    | none =>
      by_cases hc : c = sep
      · simp [hc]
      · simp [hc, ih.1 h, Ne.symm hc]
    | some p =>
      have hm : ¬ sep ∉ rest := fun hn => by simp [ih.2 hn] at h
      simp [Classical.not_not.1 hm]

theorem eq_of_cutLast? {sep : Char} {l a b : List Char} (h : cutLast? sep l = some (a, b)) :
    l = a ++ sep :: b ∧ sep ∉ b := by
  induction l generalizing a with
  | nil => simp [cutLast?] at h
  | cons c rest ih =>
    rw [cutLast?] at h
    cases ht : cutLast? sep rest with
    | some p =>
      rw [ht] at h
      cases h
      obtain ⟨rfl, hn⟩ := ih ht
      exact ⟨rfl, hn⟩
    | none =>
      rw [ht] at h
      by_cases hc : c = sep
      · simp only [hc, if_true, Option.some.injEq, Prod.mk.injEq] at h
        obtain ⟨rfl, rfl⟩ := h
        exact ⟨by simp [hc], cutLast?_eq_none_iff.1 ht⟩
      · simp [hc] at h

theorem cutLast?_append {sep : Char} {b : List Char} (h : sep ∉ b) (a : List Char) :
    cutLast? sep (a ++ sep :: b) = some (a, b) := by
  induction a with
  | nil => simp [cutLast?, cutLast?_eq_none_iff.2 h]
  | cons c rest ih => rw [List.cons_append, cutLast?, ih]

/-- Every part between characters satisfying `p`, in order; one part more than there are such
characters. -/
def pieces (p : Char → Bool) : List Char → List (List Char)
  | [] => [[]]
  | c :: rest =>
    if p c then [] :: pieces p rest
    else
      match pieces p rest with
      | [] => [[c]]
      | first :: more => (c :: first) :: more

theorem pieces_ne_nil (p : Char → Bool) (l : List Char) : pieces p l ≠ [] := by
  cases l with
  | nil => simp [pieces]
  | cons c rest =>
    rw [pieces]
    split
    · simp
    · split <;> simp

theorem pieces_cons_of_not {p : Char → Bool} {c : Char} (h : p c = false) (l : List Char) :
    ∃ first more, pieces p l = first :: more ∧ pieces p (c :: l) = (c :: first) :: more := by
  cases hl : pieces p l with
  | nil => exact absurd hl (pieces_ne_nil p l)
  | cons first more => exact ⟨first, more, rfl, by simp [pieces, h, hl]⟩

theorem pieces_append {p : Char → Bool} {c : Char} (h : p c = true) (a b : List Char) :
    pieces p (a ++ c :: b) = pieces p a ++ pieces p b := by
  induction a with
  | nil => simp [pieces, h]
  | cons x rest ih =>
    cases hx : p x with
    | true => simp [pieces, hx, ih]
    | false =>
      obtain ⟨first, more, h₁, h₂⟩ := pieces_cons_of_not hx rest
      rw [List.cons_append, pieces, ih, h₁, h₂]
      simp [hx]

theorem pieces_of_not {p : Char → Bool} {l : List Char} (h : ∀ c ∈ l, p c = false) :
    pieces p l = [l] := by
  induction l with
  | nil => rfl
  | cons c rest ih =>
    simp [pieces, h c List.mem_cons_self, ih fun x hx => h x (List.mem_cons_of_mem c hx)]

theorem not_of_mem_pieces {p : Char → Bool} {l piece : List Char} (h : piece ∈ pieces p l) :
    ∀ c ∈ piece, p c = false := by
  induction l generalizing piece with
  | nil => simp only [pieces, List.mem_singleton] at h; simp [h]
  | cons x rest ih =>
    cases hx : p x with
    | true =>
      simp only [pieces, hx, if_true, List.mem_cons] at h
      rcases h with rfl | h
      · simp
      · exact ih h
    | false =>
      obtain ⟨first, more, h₁, h₂⟩ := pieces_cons_of_not hx rest
      rw [h₂, List.mem_cons] at h
      rcases h with rfl | h
      · intro c hc
        rcases List.mem_cons.1 hc with rfl | hc
        · exact hx
        · exact ih (by rw [h₁]; exact List.mem_cons_self) c hc
      · exact ih (by rw [h₁]; exact List.mem_cons_of_mem _ h)

def splitOnce? (sep : Char) (s : String) : Option (String × String) :=
  (cut? sep s.toList).map fun (a, b) => (String.ofList a, String.ofList b)

def splitLast? (sep : Char) (s : String) : Option (String × String) :=
  (cutLast? sep s.toList).map fun (a, b) => (String.ofList a, String.ofList b)

def splitAll (p : Char → Bool) (s : String) : List String :=
  (pieces p s.toList).map String.ofList

/-- A list written with semicolons: entries are trimmed and empty ones dropped. -/
def splitList (s : String) : List String :=
  ((splitAll (· == ';') s).map trim).filter (· ≠ "")

theorem splitList_append (a b : String) :
    splitList (a ++ ";" ++ b) = splitList a ++ splitList b := by
  have h : (a ++ ";" ++ b).toList = a.toList ++ ';' :: b.toList := by simp
  simp [splitList, splitAll, h, pieces_append]

def splitWords (s : String) : List String :=
  (splitAll (fun c => c == ';' || isBlank c) s).filter (· ≠ "")

/-- The stem and extension around the last dot, provided the stem is not empty. -/
def splitExtension? (name : String) : Option (String × String) :=
  (splitLast? '.' name).filter fun (stem, _) => stem ≠ ""

end StudioMake.Text
