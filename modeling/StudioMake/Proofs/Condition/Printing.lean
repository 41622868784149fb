import StudioMake.Proofs.Condition.Parsing

/-!
# Printing conditions

A condition is printed with the parentheses that its levels ask for and any number of further
ones. Every layout of what is printed is read as the same condition again.
-/

set_option autoImplicit false

namespace StudioMake

namespace Operand

theorem written_append (a b : Operand) : written (a ++ b) = written a ++ written b := by
  rw [written, List.map_append, String.join_append]
  rfl

theorem written_textPart (text : List Char) : written (textPart text) = String.ofList text := by
  unfold textPart
  cases text with
  | nil => decide
  | cons c text => simp [written, String.join]

theorem written_splitFrom (text l : List Char) :
    written (splitFrom text l) = String.ofList (text ++ l) := by
  fun_induction splitFrom text l with
  | case1 text => rw [written_textPart, List.append_nil]
  | case2 text rest h => rw [written_textPart]
  | case3 text rest name after h _ ih =>
    obtain ⟨rfl, -⟩ := Text.eq_of_cut? h
    have hcons : written (.property (String.ofList name) :: splitFrom [] after) =
        "$(" ++ String.ofList name ++ ")" ++ written (splitFrom [] after) := by
      rw [← List.singleton_append, written_append]
      simp [written, String.join]
    rw [written_append, written_textPart, hcons, ih]
    apply String.toList_injective
    simp
  | case4 text c rest h ih => rw [ih, List.append_assoc, List.singleton_append]

theorem written_split (s : String) : written (split s) = s := by
  rw [split, written_splitFrom, List.nil_append, String.ofList_toList]

/-- An operand as a quoted text is split. -/
def InSplitForm (a : Operand) : Prop := ∃ s : String, '\'' ∉ s.toList ∧ split s = a

theorem InSplitForm.split_written {a : Operand} (h : a.InSplitForm) : split a.written = a := by
  obtain ⟨s, -, rfl⟩ := h
  rw [written_split]

theorem InSplitForm.quote_not_mem {a : Operand} (h : a.InSplitForm) :
    '\'' ∉ a.written.toList := by
  obtain ⟨s, hs, rfl⟩ := h
  rw [written_split]
  exact hs

end Operand

namespace Condition

open Text

def InSplitForm : Condition → Prop
  | .equal a b => a.InSplitForm ∧ b.InSplitForm
  | .notEqual a b => a.InSplitForm ∧ b.InSplitForm
  | .call _ a => a.InSplitForm
  | .not c => c.InSplitForm
  | .and a b => a.InSplitForm ∧ b.InSplitForm
  | .or a b => a.InSplitForm ∧ b.InSplitForm

def Rank.level : Rank → Nat
  | .atom => 0
  | .negation => 1
  | .conjunction => 2
  | .disjunction => 3

def rank : Condition → Rank
  | .equal _ _ => .atom
  | .notEqual _ _ => .atom
  | .call _ _ => .atom
  | .not _ => .negation
  | .and _ _ => .conjunction
  | .or _ _ => .disjunction

def parenthesize : Nat → List Token → List Token
  | 0, ts => ts
  | n + 1, ts => .opening :: (parenthesize n ts ++ [.closing])

def enclose (more : Nat) (inner outer : Rank) (ts : List Token) : List Token :=
  parenthesize (if inner.level ≤ outer.level then more else more + 1) ts

/-- A condition where a level of the grammar stands. `more` says how many pairs of parentheses
to write beyond the minimum around each subcondition, which is named by the way to it. -/
def print : Condition → (List Bool → Nat) → Rank → List Token
  | .equal a b, more, outer =>
    enclose (more []) .atom outer [.quoted a.written, .equal, .quoted b.written]
  | .notEqual a b, more, outer =>
    enclose (more []) .atom outer [.quoted a.written, .notEqual, .quoted b.written]
  | .call p a, more, outer =>
    enclose (more []) .atom outer [.predicate p, .opening, .quoted a.written, .closing]
  | .not c, more, outer =>
    enclose (more []) .negation outer (.bang :: print c (fun way => more (false :: way)) .negation)
  | .and a b, more, outer =>
    enclose (more []) .conjunction outer
      (print a (fun way => more (false :: way)) .conjunction ++
        .and :: print b (fun way => more (true :: way)) .negation)
  | .or a b, more, outer =>
    enclose (more []) .disjunction outer
      (print a (fun way => more (false :: way)) .disjunction ++
        .or :: print b (fun way => more (true :: way)) .conjunction)

variable {c : Condition} {ts : List Token}

theorem Derives.lift {lower upper : Rank} (h : Derives lower ts c)
    (hle : lower.level ≤ upper.level) : Derives upper ts c := by
  have conjunction_of {ts : List Token} {c : Condition} (h : Derives .negation ts c) :
      Derives .conjunction ts c := by
    have := @Derives.conjunction _ _ [] h (by simp)
    simpa [joined] using this
  have disjunction_of {ts : List Token} {c : Condition} (h : Derives .conjunction ts c) :
      Derives .disjunction ts c := by
    have := @Derives.disjunction _ _ [] h (by simp)
    simpa [joined] using this
  cases lower <;> cases upper <;> first
    | exact h
    | exact absurd hle (by decide)
    | exact .atom h
    | exact conjunction_of h
    | exact conjunction_of (.atom h)
    | exact disjunction_of h
    | exact disjunction_of (conjunction_of h)
    | exact disjunction_of (conjunction_of (.atom h))

theorem derives_enclose {more : Nat} {inner outer : Rank} (h : Derives inner ts c) :
    Derives outer (enclose more inner outer ts) c := by
  have henclosed : ∀ n, Derives .atom (parenthesize (n + 1) ts) c := by
    intro n
    induction n with
    | zero => exact .group (h.lift (by cases inner <;> decide))
    | succ n ih => exact .group (ih.lift (by decide))
  unfold enclose
  by_cases hle : inner.level ≤ outer.level
  · rw [if_pos hle]
    cases more with
    | zero => exact h.lift hle
    | succ n => exact (henclosed n).lift (Nat.zero_le _)
  · rw [if_neg hle]
    exact (henclosed more).lift (Nat.zero_le _)

theorem Derives.and {us : List Token} {d : Condition} (h : Derives .conjunction ts c)
    (h' : Derives .negation us d) : Derives .conjunction (ts ++ .and :: us) (.and c d) := by
  cases h with
  | @conjunction ts₀ c₀ operands h ho =>
    have := @Derives.conjunction _ _ (operands ++ [(us, d)]) h (by
      intro operand hmem
      rcases List.mem_append.1 hmem with hmem | hmem
      · exact ho operand hmem
      · rw [List.mem_singleton.1 hmem]
        exact h')
    simpa [joined] using this

theorem Derives.or {us : List Token} {d : Condition} (h : Derives .disjunction ts c)
    (h' : Derives .conjunction us d) : Derives .disjunction (ts ++ .or :: us) (.or c d) := by
  cases h with
  | @disjunction ts₀ c₀ operands h ho =>
    have := @Derives.disjunction _ _ (operands ++ [(us, d)]) h (by
      intro operand hmem
      rcases List.mem_append.1 hmem with hmem | hmem
      · exact ho operand hmem
      · rw [List.mem_singleton.1 hmem]
        exact h')
    simpa [joined] using this

theorem derives_print (hc : c.InSplitForm) (more : List Bool → Nat) (outer : Rank) :
    Derives outer (print c more outer) c := by
  induction c generalizing more outer with
  | equal a b =>
    have := Derives.comparison (t := .equal) rfl a.written b.written
    rw [hc.1.split_written, hc.2.split_written] at this
    exact derives_enclose this
  | notEqual a b =>
    have := Derives.comparison (t := .notEqual) rfl a.written b.written
    rw [hc.1.split_written, hc.2.split_written] at this
    exact derives_enclose this
  | call p a =>
    have := Derives.call p a.written
    rw [hc.split_written] at this
    exact derives_enclose this
  | not c ih => exact derives_enclose (.not (ih hc _ _))
  | and a b iha ihb => exact derives_enclose ((iha hc.1 _ _).and (ihb hc.2 _ _))
  | or a b iha ihb => exact derives_enclose ((iha hc.1 _ _).or (ihb hc.2 _ _))

def Token.text : Token → List Char
  | .quoted s => '\'' :: (s.toList ++ ['\''])
  | t => t.sign?.getD (t.keyword?.getD "").toList

def render (ts : List Token) : String := String.ofList (ts.flatMap fun t => t.text ++ [' '])

def Closed (ts : List Token) : Prop := ∀ s, .quoted s ∈ ts → '\'' ∉ s.toList

theorem Token.spells_text {t : Token} (h : Closed [t]) : t.Spells t.text := by
  have keyword_of {word : String} (ht : t.keyword? = some word)
      (hw : word.toList.all Char.isAlpha = true) : t.Spells word.toList := by
    apply Token.Spells.keyword ht (List.all_eq_true.1 hw)
    rw [String.ofList_toList]
    exact sameIgnoringCase_self word
  cases t with
  | quoted s => exact .quoted (h s (by simp))
  | and => exact keyword_of rfl (by decide)
  | or => exact keyword_of rfl (by decide)
  | predicate p => cases p <;> exact keyword_of rfl (by decide)
  | _ => exact .sign rfl

theorem laidOut_render (h : Closed ts) : LaidOut ts (render ts).toList [] := by
  rw [render, String.toList_ofList]
  induction ts with
  | nil => exact @LaidOut.nil [] [] (by simp)
  | cons t ts ih =>
    have ht : t.Spells t.text := by
      apply Token.spells_text
      intro s hs
      exact h s (by simp_all)
    have hrest := ih fun s hs => h s (List.mem_cons_of_mem t hs)
    have hblank : LaidOut ts (' ' :: ts.flatMap fun t => t.text ++ [' ']) [] :=
      LaidOut.of_skipBlanks (hrest.skipBlanks rfl : LaidOut ts (skipBlanks _) [])
    rw [List.flatMap_cons, List.append_assoc, List.singleton_append]
    refine @LaidOut.cons [] _ _ _ _ _ (by simp) ht ?_ hblank
    intro _ c hc
    cases hc
    decide

theorem closed_enclose {more : Nat} {inner outer : Rank} (h : Closed ts) :
    Closed (enclose more inner outer ts) := by
  unfold enclose
  generalize (if inner.level ≤ outer.level then more else more + 1) = n
  induction n with
  | zero => exact h
  | succ n ih =>
    intro s hs
    apply ih
    simpa [parenthesize] using hs

theorem closed_print (hc : c.InSplitForm) (more : List Bool → Nat) (outer : Rank) :
    Closed (print c more outer) := by
  induction c generalizing more outer with
  | equal a b =>
    apply closed_enclose
    intro s hs
    have hs : s = a.written ∨ s = b.written := by simpa using hs
    rcases hs with rfl | rfl
    · exact hc.1.quote_not_mem
    · exact hc.2.quote_not_mem
  | notEqual a b =>
    apply closed_enclose
    intro s hs
    have hs : s = a.written ∨ s = b.written := by simpa using hs
    rcases hs with rfl | rfl
    · exact hc.1.quote_not_mem
    · exact hc.2.quote_not_mem
  | call p a =>
    apply closed_enclose
    intro s hs
    have hs : s = a.written := by simpa using hs
    exact hs ▸ hc.quote_not_mem
  | not c ih =>
    apply closed_enclose
    intro s hs
    exact ih hc _ _ s (by simpa using hs)
  | and a b iha ihb =>
    apply closed_enclose
    intro s hs
    rcases List.mem_append.1 hs with hs | hs
    · exact iha hc.1 _ _ s hs
    · exact ihb hc.2 _ _ s (by simpa using hs)
  | or a b iha ihb =>
    apply closed_enclose
    intro s hs
    rcases List.mem_append.1 hs with hs | hs
    · exact iha hc.1 _ _ s hs
    · exact ihb hc.2 _ _ s (by simpa using hs)

/-- The parser takes exactly the texts of the grammar, and each of them has one sequence of tokens
and one condition. A printed condition, laid out in any way, is read as itself, whatever
parentheses it has. -/
theorem parser_accepts_grammar :
    (∀ (s : String) (c : Condition),
      parse? s = some c ↔ ∃ ts, LaidOut ts s.toList [] ∧ Derives .disjunction ts c) ∧
    (∀ (s : String) (ts us : List Token) (c d : Condition), LaidOut ts s.toList [] →
      Derives .disjunction ts c → LaidOut us s.toList [] → Derives .disjunction us d →
        ts = us ∧ c = d) ∧
    ∀ (c : Condition) (more : List Bool → Nat), c.InSplitForm →
      (∀ s : String, LaidOut (print c more .disjunction) s.toList [] → parse? s = some c) ∧
        parse? (render (print c more .disjunction)) = some c := by
  have hread : ∀ (c : Condition) (more : List Bool → Nat), c.InSplitForm → ∀ s : String,
      LaidOut (print c more .disjunction) s.toList [] → parse? s = some c := by
    intro c more hc s hs
    exact parse?_eq_some_iff.2 ⟨_, hs, derives_print hc more .disjunction⟩
  refine ⟨?_, ?_, ?_⟩
  · intro s c
    exact parse?_eq_some_iff
  · intro s ts us c d ht hc hu hd
    have hc : parse? s = some c := parse?_eq_some_iff.2 ⟨ts, ht, hc⟩
    have hd : parse? s = some d := parse?_eq_some_iff.2 ⟨us, hu, hd⟩
    exact ⟨ht.unique hu, Option.some.inj (hc.symm.trans hd)⟩
  · intro c more hc
    refine ⟨hread c more hc, ?_⟩
    apply hread c more hc
    exact laidOut_render (closed_print hc more .disjunction)

def guarded : Condition :=
  .and
    (.not (.or (.call .pathExists [.text "a"]) (.equal [.property "C", .text "x"] [.text "D"])))
    (.notEqual [] [.text "b"])

theorem inSplitForm_guarded : guarded.InSplitForm := by
  refine ⟨⟨⟨"a", ?_, ?_⟩, ⟨"$(C)x", ?_, ?_⟩, "D", ?_, ?_⟩, ⟨"", ?_, ?_⟩, "b", ?_, ?_⟩ <;>
    decide +kernel

theorem parser_accepts_grammar_guarded :
    guarded.InSplitForm ∧
      LaidOut (print guarded List.length .disjunction)
        (render (print guarded List.length .disjunction)).toList [] ∧
      parse? (render (print guarded List.length .disjunction)) = some guarded ∧
      ∀ us d, LaidOut us (render (print guarded List.length .disjunction)).toList [] →
        Derives .disjunction us d →
          print guarded List.length .disjunction = us ∧ guarded = d := by
  have hlaid := laidOut_render (closed_print inSplitForm_guarded List.length .disjunction)
  have hderives := derives_print inSplitForm_guarded List.length .disjunction
  refine ⟨inSplitForm_guarded, hlaid, ?_, ?_⟩
  · exact (parser_accepts_grammar.2.2 guarded List.length inSplitForm_guarded).2
  · intro us d hu hd
    exact parser_accepts_grammar.2.1 _ _ us guarded d hlaid hderives hu hd

end Condition

end StudioMake
