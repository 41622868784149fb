import StudioMake.Proofs.Text.Pieces

/-!
# The entries of a written list

A list that is written with semicolons keeps its entries when blanks or semicolons at its ends are
taken away, and those of two lists with a semicolon between them are the entries of both. A pattern
without the separator is never written across it.
-/

set_option autoImplicit false

namespace StudioMake.Text

section Ends

variable {α : Type} {p : Char → Bool} {c : Char}

theorem eq_of_dropWhile {f : List Char → α} (h : ∀ c l, p c = true → f (c :: l) = f l)
    (l : List Char) : f (l.dropWhile p) = f l := by
  induction l with
  | nil => rfl
  | cons c rest ih =>
    by_cases hc : p c = true
    · rw [List.dropWhile_cons_of_pos hc, ih, h c rest hc]
    · rw [List.dropWhile_cons_of_neg hc]

theorem eq_of_dropEndWhile {f : List Char → α} (h : ∀ c l, p c = true → f (l ++ [c]) = f l)
    (l : List Char) : f (dropEndWhile p l) = f l := by
  have hr := eq_of_dropWhile (f := fun l => f l.reverse)
    (fun c l hc => by rw [List.reverse_cons, h c _ hc]) l.reverse
  rwa [List.reverse_reverse] at hr

theorem dropWhile_append_cons (h : p c = false) (l rest : List Char) :
    (l ++ c :: rest).dropWhile p = l.dropWhile p ++ c :: rest := by
  induction l with
  | nil => exact List.dropWhile_cons_of_neg (by simp [h])
  | cons x l ih =>
    by_cases hx : p x = true
    · rw [List.cons_append, List.dropWhile_cons_of_pos hx, List.dropWhile_cons_of_pos hx, ih]
    · rw [List.cons_append, List.dropWhile_cons_of_neg hx, List.dropWhile_cons_of_neg hx,
        List.cons_append]

theorem dropEndWhile_append_cons (h : p c = false) (l rest : List Char) :
    dropEndWhile p (l ++ c :: rest) = l ++ c :: dropEndWhile p rest := by
  have hr : (l ++ c :: rest).reverse = rest.reverse ++ c :: l.reverse := by simp
  rw [dropEndWhile, hr, dropWhile_append_cons h, dropEndWhile]
  simp

theorem dropEndWhile_append_takeWhile (p : Char → Bool) (l : List Char) :
    dropEndWhile p l ++ (l.reverse.takeWhile p).reverse = l := by
  rw [dropEndWhile, ← List.reverse_append, List.takeWhile_append_dropWhile, List.reverse_reverse]

theorem exists_toList_eq_trim (s : String) : ∃ lead trail,
    s.toList = lead ++ (trim s).toList ++ trail ∧
      (∀ c ∈ lead, isBlank c = true) ∧ ∀ c ∈ trail, isBlank c = true := by
  refine ⟨s.toList.takeWhile isBlank,
    ((s.toList.dropWhile isBlank).reverse.takeWhile isBlank).reverse, ?_,
    List.all_eq_true.1 List.all_takeWhile, ?_⟩
  · rw [toList_trim, List.append_assoc, dropEndWhile_append_takeWhile,
      List.takeWhile_append_dropWhile]
  · intro c hc
    exact List.all_eq_true.1 List.all_takeWhile c (List.mem_reverse.1 hc)

theorem isBlank_of_getLast?_trim {s : String} (h : (trim s).toList.getLast? = some c) :
    isBlank c = false := by
  rw [toList_trim, dropEndWhile, List.getLast?_reverse] at h
  have hn := List.head?_dropWhile_not isBlank (s.toList.dropWhile isBlank).reverse
  rw [h] at hn
  exact hn

theorem dropWhile_of_trim {s : String} (h : trim s = s) :
    s.toList.dropWhile isBlank = s.toList := by
  have ht := congrArg (fun s => s.toList.length) h
  simp only [toList_trim, dropEndWhile, List.length_reverse] at ht
  have hr := (List.dropWhile_suffix (l := (s.toList.dropWhile isBlank).reverse) isBlank).length_le
  rw [List.length_reverse] at hr
  exact (List.dropWhile_suffix isBlank).eq_of_length_le (by omega)

theorem dropEndWhile_of_trim {s : String} (h : trim s = s) :
    dropEndWhile isBlank s.toList = s.toList := by
  have ht := congrArg String.toList h
  rwa [toList_trim, dropWhile_of_trim h] at ht

theorem trim_cons (h : isBlank c = true) (l : List Char) :
    trim (String.ofList (c :: l)) = trim (String.ofList l) := by
  simp only [trim, String.toList_ofList, List.dropWhile_cons_of_pos h]

theorem trim_concat (h : isBlank c = true) (l : List Char) :
    trim (String.ofList (l ++ [c])) = trim (String.ofList l) := by
  simp only [trim, String.toList_ofList]
  induction l with
  | nil => rw [List.nil_append, List.dropWhile_cons_of_pos h]
  | cons x l ih =>
    by_cases hx : isBlank x = true
    · rw [List.cons_append, List.dropWhile_cons_of_pos hx, List.dropWhile_cons_of_pos hx, ih]
    · rw [List.cons_append, List.dropWhile_cons_of_neg hx, List.dropWhile_cons_of_neg hx,
        ← List.cons_append, dropEndWhile_concat, if_pos h]

theorem trim_trim (s : String) : trim (trim s) = trim s := by
  have hs : trim s = trim (String.ofList s.toList) := by rw [String.ofList_toList]
  have ht : trim (trim s) =
      trim (String.ofList (dropEndWhile isBlank (s.toList.dropWhile isBlank))) := by
    rw [← toList_trim, String.ofList_toList]
  rw [ht, hs,
    eq_of_dropEndWhile (f := fun l => trim (String.ofList l)) fun c l h => trim_concat h l,
    eq_of_dropWhile (f := fun l => trim (String.ofList l)) fun c l h => trim_cons h l]

end Ends

theorem splitList_ofList (l : List Char) : splitList (String.ofList l) =
    ((pieces (· == ';') l).map fun piece => trim (String.ofList piece)).filter (· ≠ "") := by
  simp [splitList, splitAll, Function.comp_def]

theorem splitList_empty : splitList "" = [] := by decide

theorem splitList_append_cons (a b : List Char) :
    splitList (String.ofList (a ++ ';' :: b)) =
      splitList (String.ofList a) ++ splitList (String.ofList b) := by
  have h := splitList_append (String.ofList a) (String.ofList b)
  rwa [← String.toList_inj.1 (show (String.ofList (a ++ ';' :: b)).toList =
    (String.ofList a ++ ";" ++ String.ofList b).toList by simp)] at h

theorem splitList_cons_blank {c : Char} (h : isBlank c = true) (l : List Char) :
    splitList (String.ofList (c :: l)) = splitList (String.ofList l) := by
  have hc : (c == ';') = false := by
    rw [beq_eq_false_iff_ne]
    rintro rfl
    exact absurd h (by decide)
  obtain ⟨first, more, hl, hcl⟩ := pieces_cons_of_not (p := (· == ';')) hc l
  rw [splitList_ofList, splitList_ofList, hl, hcl, List.map_cons, List.map_cons, trim_cons h]

theorem splitList_concat_blank {c : Char} (h : isBlank c = true) (l : List Char) :
    splitList (String.ofList (l ++ [c])) = splitList (String.ofList l) := by
  have hn : ∀ piece : List Char, ';' ∉ piece →
      splitList (String.ofList (piece ++ [c])) = splitList (String.ofList piece) := by
    intro piece hp
    have hc : c ≠ ';' := by
      rintro rfl
      exact absurd h (by decide)
    have hpc : ';' ∉ piece ++ [c] := by
      rw [List.mem_append, List.mem_singleton, not_or]
      exact ⟨hp, Ne.symm hc⟩
    rw [splitList_ofList, splitList_ofList, pieces_of_notMem hp, pieces_of_notMem hpc,
      List.map_singleton, List.map_singleton, trim_concat h]
  cases hl : cutLast? ';' l with
  | none => exact hn l (cutLast?_eq_none_iff.1 hl)
  | some parts =>
    obtain ⟨a, b⟩ := parts
    obtain ⟨rfl, hb⟩ := eq_of_cutLast? hl
    rw [List.append_assoc, List.cons_append, splitList_append_cons, splitList_append_cons, hn b hb]

theorem splitList_of_notMem {l : List Char} (h : ';' ∉ l) :
    splitList (String.ofList l) = [trim (String.ofList l)].filter (· ≠ "") := by
  rw [splitList_ofList, pieces_of_notMem h, List.map_singleton]

theorem splitList_blanks {lead trail : List Char} (hlead : ∀ c ∈ lead, isBlank c = true)
    (htrail : ∀ c ∈ trail, isBlank c = true) (l : List Char) :
    splitList (String.ofList (lead ++ l ++ trail)) = splitList (String.ofList l) := by
  have hbehind (l : List Char) :
      splitList (String.ofList (l ++ trail)) = splitList (String.ofList l) := by
    induction trail generalizing l with
    | nil => rw [List.append_nil]
    | cons c trail ih =>
      obtain ⟨hc, htrail⟩ := List.forall_mem_cons.1 htrail
      rw [List.append_cons, ih htrail, splitList_concat_blank hc]
  rw [hbehind]
  induction lead with
  | nil => rfl
  | cons c lead ih =>
    obtain ⟨hc, hlead⟩ := List.forall_mem_cons.1 hlead
    rw [List.cons_append, splitList_cons_blank hc, ih hlead]

theorem splitList_trim (s : String) : splitList (trim s) = splitList s := by
  have h := eq_of_dropEndWhile (f := fun l => splitList (String.ofList l))
    (fun c l hc => splitList_concat_blank hc l) (s.toList.dropWhile isBlank)
  rw [trim, h, eq_of_dropWhile (f := fun l => splitList (String.ofList l))
    (fun c l hc => splitList_cons_blank hc l), String.ofList_toList]

theorem splitList_trimChar (s : String) : splitList (trimChar ';' s) = splitList s := by
  have hcons : ∀ c l, (c == ';') = true →
      splitList (String.ofList (c :: l)) = splitList (String.ofList l) := by
    intro c l hc
    have h := splitList_append_cons [] l
    rw [eq_of_beq hc]
    exact h
  have hconcat : ∀ c l, (c == ';') = true →
      splitList (String.ofList (l ++ [c])) = splitList (String.ofList l) := by
    intro c l hc
    have h := splitList_append_cons l []
    rw [eq_of_beq hc, h]
    exact List.append_nil _
  rw [trimChar, eq_of_dropEndWhile (f := fun l => splitList (String.ofList l)) hconcat,
    eq_of_dropWhile (f := fun l => splitList (String.ofList l)) hcons, String.ofList_toList]

theorem infix_of_dropWhile {pattern l : List Char} {p : Char → Bool}
    (h : pattern <:+: l.dropWhile p) : pattern <:+: l :=
  h.trans (List.dropWhile_suffix p).isInfix

theorem infix_of_dropEndWhile {pattern l : List Char} {p : Char → Bool}
    (h : pattern <:+: dropEndWhile p l) : pattern <:+: l := by
  rw [dropEndWhile, ← List.reverse_infix, List.reverse_reverse] at h
  exact List.reverse_infix.1 (infix_of_dropWhile h)

theorem infix_of_trim {pattern : List Char} {s : String} (h : pattern <:+: (trim s).toList) :
    pattern <:+: s.toList := by
  rw [toList_trim] at h
  exact infix_of_dropWhile (infix_of_dropEndWhile h)

theorem infix_of_trimChar {pattern : List Char} {c : Char} {s : String}
    (h : pattern <:+: (trimChar c s).toList) : pattern <:+: s.toList := by
  rw [trimChar, String.toList_ofList] at h
  exact infix_of_dropWhile (infix_of_dropEndWhile h)

theorem prefix_of_append_cons {pattern a b : List Char} {sep : Char} (hs : sep ∉ pattern)
    (h : pattern <+: a ++ sep :: b) : pattern <+: a := by
  induction a generalizing pattern with
  | nil =>
    cases pattern with
    | nil => exact List.nil_prefix
    | cons c rest =>
      obtain ⟨rfl, -⟩ := List.cons_prefix_cons.1 h
      exact absurd List.mem_cons_self hs
  | cons x a ih =>
    cases pattern with
    | nil => exact List.nil_prefix
    | cons c rest =>
      obtain ⟨rfl, hr⟩ := List.cons_prefix_cons.1 h
      exact List.cons_prefix_cons.2 ⟨rfl, ih (fun hm => hs (List.mem_cons_of_mem c hm)) hr⟩

theorem infix_of_append_of_disjoint {pattern lead l : List Char} (hlead : ∀ c ∈ lead, c ∉ pattern)
    (h : pattern <:+: lead ++ l) : pattern <:+: l := by
  induction lead with
  | nil => exact h
  | cons x lead ih =>
    obtain ⟨hx, hlead⟩ := List.forall_mem_cons.1 hlead
    rw [List.cons_append, List.infix_cons_iff] at h
    rcases h with h | h
    · cases pattern with
      | nil => exact List.nil_infix
      | cons c rest =>
        obtain ⟨rfl, -⟩ := List.cons_prefix_cons.1 h
        exact absurd List.mem_cons_self hx
    · exact ih hlead h

theorem infix_trim {pattern : List Char} {s : String} (hp : ∀ c ∈ pattern, isBlank c = false)
    (h : pattern <:+: s.toList) : pattern <:+: (trim s).toList := by
  obtain ⟨lead, trail, hs, hlead, htrail⟩ := exists_toList_eq_trim s
  have hn : ∀ c, isBlank c = true → c ∉ pattern := by
    intro c hc hm
    rw [hp c hm] at hc
    cases hc
  rw [hs, List.append_assoc] at h
  have h := infix_of_append_of_disjoint (fun c hc => hn c (hlead c hc)) h
  rw [← List.reverse_infix, List.reverse_append] at h
  refine List.reverse_infix.1 (infix_of_append_of_disjoint (fun c hc hm => ?_) h)
  exact hn c (htrail c (List.mem_reverse.1 hc)) (List.mem_reverse.1 hm)

theorem infix_of_append_cons {pattern a b : List Char} {sep : Char} (hs : sep ∉ pattern)
    (h : pattern <:+: a ++ sep :: b) : pattern <:+: a ∨ pattern <:+: b := by
  induction a with
  | nil =>
    rw [List.nil_append, List.infix_cons_iff] at h
    rcases h with h | h
    · exact .inl (prefix_of_append_cons (a := []) hs h).isInfix
    · exact .inr h
  | cons x a ih =>
    rw [List.cons_append, List.infix_cons_iff] at h
    rcases h with h | h
    · exact .inl (prefix_of_append_cons (a := x :: a) hs h).isInfix
    · rcases ih h with h | h
      · exact .inl (h.trans (List.suffix_cons x a).isInfix)
      · exact .inr h

end StudioMake.Text
