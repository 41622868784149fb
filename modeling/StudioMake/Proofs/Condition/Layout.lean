import StudioMake.Proofs.Condition.Grammar
import StudioMake.Proofs.Text.LetterCase

/-!
# Reading laid out tokens

What stands at the start of a text is settled token by token: `TokenAt` skips the blanks around one
token, and a layout is a chain of such steps. The readers of single tokens take exactly them, and
no text is laid out in two ways.
-/

set_option autoImplicit false

namespace StudioMake.Condition

open Text
open Text.Reader (just upTo run)

def startOf (c : Char) : Option Char := if c.isAlpha then none else some c

def Token.start : Token → Option Char
  | .quoted _ => some '\''
  | .equal => some '='
  | .notEqual => some '!'
  | .bang => some '!'
  | .opening => some '('
  | .closing => some ')'
  | .and => none
  | .or => none
  | .predicate _ => none

theorem Token.start_of_keyword? {t : Token} {word : String} (h : t.keyword? = some word) :
    t.start = none := by
  cases t <;> first | rfl | cases h

theorem Token.keyword?_ne_empty {t : Token} {word : String} (h : t.keyword? = some word) :
    lower word ≠ "" := by
  cases t with
  | predicate p => cases p <;> cases h <;> decide
  | and => cases h; decide
  | or => cases h; decide
  | _ => cases h

theorem Token.Spells.head {t : Token} {w : List Char} (h : t.Spells w) :
    ∃ c rest, w = c :: rest ∧ startOf c = t.start := by
  cases h with
  | quoted h => exact ⟨_, _, rfl, rfl⟩
  | sign ht => cases t <;> cases ht <;> exact ⟨_, _, rfl, rfl⟩
  | keyword ht hw hs =>
    cases w with
    | nil =>
      have he : lower "" = lower _ := sameIgnoringCase_iff.1 hs
      exact absurd he.symm (Token.keyword?_ne_empty ht)
    | cons c rest =>
      refine ⟨c, rest, rfl, ?_⟩
      rw [Token.start_of_keyword? ht, startOf, if_pos (hw c List.mem_cons_self)]

theorem Token.isBlank_eq_false_of_start {t : Token} {c : Char} (h : startOf c = t.start) :
    isBlank c = false := by
  unfold startOf at h
  split at h
  · next hc => exact isBlank_eq_false_of_isAlpha hc
  · cases t <;> simp only [Token.start, Option.some.injEq, reduceCtorEq] at h
    all_goals
      subst h
      decide

/-- After blanks `t` stands at the start of `l`; `rest` is what follows it without blanks. -/
def TokenAt (t : Token) (l rest : List Char) : Prop :=
  ∃ w m, t.Spells w ∧ skipBlanks l = w ++ m ∧
    (t.keyword? ≠ none → ∀ c ∈ m.head?, c.isAlpha = false) ∧ rest = skipBlanks m

namespace TokenAt

variable {t u : Token} {l rest rest' : List Char}

theorem skipBlanks_rest (h : TokenAt t l rest) : skipBlanks rest = rest := by
  obtain ⟨_, m, _, _, _, rfl⟩ := h
  exact skipBlanks_skipBlanks m

theorem head (h : TokenAt t l rest) : ∃ c m, skipBlanks l = c :: m ∧ startOf c = t.start := by
  obtain ⟨w, m, hw, hl, -, -⟩ := h
  obtain ⟨c, w', rfl, hc⟩ := hw.head
  exact ⟨c, w' ++ m, hl, hc⟩

theorem same_start (h : TokenAt t l rest) (h' : TokenAt u l rest') : t.start = u.start := by
  obtain ⟨c, m, hl, hc⟩ := h.head
  obtain ⟨d, m', hl', hd⟩ := h'.head
  rw [hl] at hl'
  cases hl'
  exact hc.symm.trans hd

theorem length_lt (h : TokenAt t l rest) : rest.length < l.length := by
  obtain ⟨w, m, hw, hl, -, rfl⟩ := h
  obtain ⟨c, w', rfl, -⟩ := hw.head
  have h₁ := length_skipBlanks_le m
  have h₂ := length_skipBlanks_le l
  rw [hl] at h₂
  simp only [List.length_append, List.length_cons] at h₂
  omega

end TokenAt

theorem tokenAt_skipBlanks {t : Token} {l rest : List Char} :
    TokenAt t (skipBlanks l) rest ↔ TokenAt t l rest := by
  simp only [TokenAt, skipBlanks_skipBlanks]

theorem LaidOut.of_skipBlanks {ts : List Token} {l rest : List Char}
    (h : LaidOut ts (skipBlanks l) rest) : LaidOut ts l rest := by
  obtain ⟨blanks, hb, hl⟩ := eq_append_skipBlanks l
  rw [hl]
  generalize skipBlanks l = m at h
  cases h with
  | @nil more _ hm =>
    rw [← List.append_assoc]
    apply LaidOut.nil
    intro c hc
    rcases List.mem_append.1 hc with hc | hc
    · exact hb c hc
    · exact hm c hc
  | @cons more w k _ _ _ hm hw hk h =>
    rw [← List.append_assoc]
    refine LaidOut.cons ?_ hw hk h
    intro c hc
    rcases List.mem_append.1 hc with hc | hc
    · exact hb c hc
    · exact hm c hc

theorem LaidOut.length_le {ts : List Token} {l rest : List Char} (h : LaidOut ts l rest) :
    rest.length ≤ l.length := by
  induction h with
  | nil => simp
  | cons _ _ _ _ ih =>
    simp only [List.length_append]
    omega

theorem laidOut_nil_iff {l rest : List Char} (hr : skipBlanks rest = rest) :
    LaidOut [] l rest ↔ skipBlanks l = rest := by
  constructor
  · intro h
    rcases h with ⟨hb⟩
    rw [skipBlanks_append hb, hr]
  · rintro rfl
    obtain ⟨blanks, hb, hl⟩ := eq_append_skipBlanks l
    conv => lhs; rw [hl]
    exact LaidOut.nil hb

theorem Token.Spells.skipBlanks_append {t : Token} {w : List Char} (h : t.Spells w)
    (l : List Char) : skipBlanks (w ++ l) = w ++ l := by
  obtain ⟨c, w', rfl, hc⟩ := h.head
  exact skipBlanks_cons_of_not (Token.isBlank_eq_false_of_start hc) _

theorem LaidOut.skipBlanks {ts : List Token} {l rest : List Char} (hr : skipBlanks rest = rest)
    (h : LaidOut ts l rest) : LaidOut ts (skipBlanks l) rest := by
  cases h with
  | nil hb =>
    rw [skipBlanks_append hb, hr]
    exact @LaidOut.nil [] _ (by simp)
  | @cons blanks w k _ _ _ hb hw hk h =>
    rw [skipBlanks_append hb, hw.skipBlanks_append]
    exact @LaidOut.cons [] _ _ _ _ _ (by simp) hw hk h

theorem laidOut_cons_iff {t : Token} {ts : List Token} {l rest : List Char}
    (hr : skipBlanks rest = rest) :
    LaidOut (t :: ts) l rest ↔ ∃ m, TokenAt t l m ∧ LaidOut ts m rest := by
  constructor
  · intro h
    rcases h with ⟨⟩
    next blanks w k hb hw hk h =>
    refine ⟨Text.skipBlanks k, ⟨w, k, hw, ?_, hk, rfl⟩, h.skipBlanks hr⟩
    rw [skipBlanks_append hb, hw.skipBlanks_append]
  · intro h
    rcases h with ⟨_, ⟨w, k, hw, hl, hk, rfl⟩, h⟩
    apply LaidOut.of_skipBlanks
    rw [hl]
    exact @LaidOut.cons [] _ _ _ _ _ (by simp) hw hk h.of_skipBlanks

theorem laidOut_append_iff {ts us : List Token} {l rest : List Char}
    (hr : skipBlanks rest = rest) :
    LaidOut (ts ++ us) l rest ↔
      ∃ m, skipBlanks m = m ∧ LaidOut ts l m ∧ LaidOut us m rest := by
  induction ts generalizing l with
  | nil =>
    constructor
    · intro h
      have hs := skipBlanks_skipBlanks l
      exact ⟨_, hs, (laidOut_nil_iff hs).2 rfl, h.skipBlanks hr⟩
    · intro h
      rcases h with ⟨m, hm, ht, hu⟩
      rw [laidOut_nil_iff hm] at ht
      rw [← ht] at hu
      exact hu.of_skipBlanks
  | cons t ts ih =>
    rw [List.cons_append, laidOut_cons_iff hr]
    constructor
    · intro h
      rcases h with ⟨k, hk, h⟩
      obtain ⟨m, hm, ht, hu⟩ := ih.1 h
      exact ⟨m, hm, (laidOut_cons_iff hm).2 ⟨k, hk, ht⟩, hu⟩
    · intro h
      rcases h with ⟨m, hm, ht, hu⟩
      obtain ⟨k, hk, ht⟩ := (laidOut_cons_iff hm).1 ht
      exact ⟨k, hk, ih.2 ⟨m, hm, ht, hu⟩⟩

theorem laidOut_singleton_iff {t : Token} {l rest : List Char} (hr : skipBlanks rest = rest) :
    LaidOut [t] l rest ↔ TokenAt t l rest := by
  rw [laidOut_cons_iff hr]
  constructor
  · intro h
    rcases h with ⟨m, ht, h⟩
    rw [laidOut_nil_iff hr, ht.skipBlanks_rest] at h
    exact h ▸ ht
  · intro ht
    exact ⟨rest, ht, (laidOut_nil_iff hr).2 hr⟩

theorem tokenAt_sign_iff {t : Token} {w l rest : List Char} (ht : t.sign? = some w) :
    TokenAt t l rest ↔ ∃ m, skipBlanks l = w ++ m ∧ rest = skipBlanks m := by
  have hk : t.keyword? = none := by cases t <;> cases ht <;> rfl
  constructor
  · intro h
    rcases h with ⟨w', m, hw, hl, -, hr⟩
    have he : w' = w := by
      cases hw with
      | quoted h => cases ht
      | sign hs => exact Option.some.inj (hs.symm.trans ht)
      | keyword hw => rw [hk] at hw; cases hw
    exact ⟨m, he ▸ hl, hr⟩
  · intro h
    rcases h with ⟨m, hl, hr⟩
    exact ⟨w, m, .sign ht, hl, fun h => absurd hk h, hr⟩

theorem reads_sign {t : Token} {c : Char} {l rest : List Char} (ht : t.sign? = some [c]) :
    (just c).padded.Reads l () rest ↔ TokenAt t l rest := by
  simp only [Reader.reads_padded, Reader.reads_just, tokenAt_sign_iff ht, List.cons_append,
    List.nil_append]

theorem tokenAt_quoted_iff {s : String} {l rest : List Char} :
    TokenAt (.quoted s) l rest ↔
      '\'' ∉ s.toList ∧ ∃ m, skipBlanks l = '\'' :: (s.toList ++ '\'' :: m) ∧
        rest = skipBlanks m := by
  constructor
  · intro h
    rcases h with ⟨w, m, hw, hl, -, hr⟩
    cases hw with
    | quoted h => exact ⟨h, m, by simpa using hl, hr⟩
    | sign ht => cases ht
    | keyword ht => cases ht
  · intro h
    rcases h with ⟨h, m, hl, hr⟩
    exact ⟨_, m, .quoted h, by simpa using hl, fun hn => absurd rfl hn, hr⟩

theorem reads_quoted {a : Operand} {l rest : List Char} :
    quoted.padded.Reads l a rest ↔ ∃ s, a = Operand.split s ∧ TokenAt (.quoted s) l rest := by
  simp only [Reader.reads_padded, quoted, Reader.reads_map, Reader.reads_right, Reader.reads_just,
    Reader.reads_upTo, tokenAt_quoted_iff]
  constructor
  · intro h
    rcases h with ⟨m, ⟨s, ⟨_, k, hl, rfl, hn⟩, rfl⟩, rfl⟩
    exact ⟨String.ofList s, rfl, by simpa using hn, m, by simpa using hl, rfl⟩
  · intro h
    rcases h with ⟨s, rfl, hn, m, hl, rfl⟩
    exact ⟨m, ⟨s.toList, ⟨(), _, hl, rfl, hn⟩, by simp⟩, rfl⟩

theorem tokenAt_keyword_iff {t : Token} {word : String} {l rest : List Char}
    (ht : t.keyword? = some word) :
    TokenAt t l rest ↔
      sameIgnoringCase (String.ofList ((skipBlanks l).takeWhile Char.isAlpha)) word = true ∧
        rest = skipBlanks ((skipBlanks l).dropWhile Char.isAlpha) := by
  constructor
  · intro h
    rcases h with ⟨w, m, hw, hl, hk, rfl⟩
    have hm : m.takeWhile Char.isAlpha = [] ∧ m.dropWhile Char.isAlpha = m := by
      cases m with
      | nil => exact ⟨rfl, rfl⟩
      | cons c m =>
        have hc := hk (by rw [ht]; simp) c rfl
        exact ⟨List.takeWhile_cons_of_neg (by simp [hc]), List.dropWhile_cons_of_neg (by simp [hc])⟩
    cases hw with
    | quoted h => cases ht
    | sign hs => cases t <;> cases hs <;> cases ht
    | keyword ht' hw hs =>
      rw [hl, List.takeWhile_append_of_pos hw, List.dropWhile_append_of_pos hw, hm.1, hm.2,
        List.append_nil]
      rw [ht] at ht'
      cases ht'
      exact ⟨hs, rfl⟩
  · intro h
    rcases h with ⟨hs, rfl⟩
    refine ⟨_, _, .keyword ht ?_ hs, List.takeWhile_append_dropWhile.symm, ?_, rfl⟩
    · intro c hc
      exact List.all_eq_true.1 List.all_takeWhile c hc
    · intro _ c hc
      have := List.head?_dropWhile_not Char.isAlpha (skipBlanks l)
      rw [Option.mem_def.1 hc] at this
      simpa using this

theorem reads_keyword {t : Token} {word : String} {l rest : List Char}
    (ht : t.keyword? = some word) : (keyword word).Reads l () rest ↔ TokenAt t l rest := by
  simp only [keyword, Reader.reads_padded, Reader.reads_map, Reader.reads_filter, Reader.reads_run,
    tokenAt_keyword_iff ht]
  constructor
  · intro h
    rcases h with ⟨m, ⟨a, ⟨⟨_, rfl, rfl⟩, hs⟩, -⟩, rfl⟩
    exact ⟨hs, rfl⟩
  · intro h
    rcases h with ⟨hs, rfl⟩
    refine ⟨_, ⟨_, ⟨⟨?_, rfl, rfl⟩, hs⟩, trivial⟩, rfl⟩
    intro he
    rw [he] at hs
    exact Token.keyword?_ne_empty ht (sameIgnoringCase_iff.1 hs).symm

theorem TokenAt.same_keyword {t u : Token} {v w : String} {l rest rest' : List Char}
    (ht : t.keyword? = some v) (hu : u.keyword? = some w) (h : TokenAt t l rest)
    (h' : TokenAt u l rest') : lower v = lower w := by
  have hv := sameIgnoringCase_iff.1 ((tokenAt_keyword_iff ht).1 h).1
  have hw := sameIgnoringCase_iff.1 ((tokenAt_keyword_iff hu).1 h').1
  exact hv.symm.trans hw

theorem Token.eq_of_keyword? {t u : Token} {v w : String} (ht : t.keyword? = some v)
    (hu : u.keyword? = some w) (h : lower v = lower w) : t = u := by
  have hkeywords : ∀ t : Token, ∀ v, t.keyword? = some v →
      t = .and ∧ lower v = "and" ∨ t = .or ∧ lower v = "or" ∨
        t = .predicate .pathExists ∧ lower v = "exists" ∨
          t = .predicate .hasTrailingSlash ∧ lower v = "hastrailingslash" := by
    intro t v ht
    cases t with
    | predicate p => cases p <;> cases ht <;> decide
    | _ => cases ht <;> decide
  have ht := hkeywords t v ht
  have hu := hkeywords u w hu
  rw [← h] at hu
  rcases ht with ⟨rfl, hv⟩ | ⟨rfl, hv⟩ | ⟨rfl, hv⟩ | ⟨rfl, hv⟩ <;>
    rcases hu with ⟨rfl, hw⟩ | ⟨rfl, hw⟩ | ⟨rfl, hw⟩ | ⟨rfl, hw⟩ <;>
      first
        | rfl
        | exact absurd (hv.symm.trans hw) (by decide)

theorem Token.exists_keyword? {t : Token} (h : t.start = none) :
    ∃ word, t.keyword? = some word := by
  cases t <;> first
    | exact ⟨_, rfl⟩
    | cases h

namespace TokenAt

variable {t u : Token} {l m k : List Char}

theorem rest_unique (h : TokenAt t l m) (h' : TokenAt t l k) : m = k := by
  cases hs : t.sign? with
  | some w =>
    obtain ⟨j, hj, rfl⟩ := (tokenAt_sign_iff hs).1 h
    obtain ⟨j', hj', rfl⟩ := (tokenAt_sign_iff hs).1 h'
    rw [hj] at hj'
    rw [List.append_cancel_left hj']
  | none =>
    cases hk : t.keyword? with
    | some word =>
      have hm := ((tokenAt_keyword_iff hk).1 h).2
      have hk := ((tokenAt_keyword_iff hk).1 h').2
      exact hm.trans hk.symm
    | none =>
      cases t with
      | quoted s =>
        obtain ⟨-, j, hj, rfl⟩ := tokenAt_quoted_iff.1 h
        obtain ⟨-, j', hj', rfl⟩ := tokenAt_quoted_iff.1 h'
        rw [hj, List.cons.injEq] at hj'
        have he := List.append_cancel_left hj'.2
        rw [List.cons.inj he |>.2]
      | and => cases hk
      | or => cases hk
      | predicate p => cases hk
      | _ => cases hs

theorem quoted_unique {s s' : String} (h : TokenAt (.quoted s) l m)
    (h' : TokenAt (.quoted s') l k) : s = s' := by
  obtain ⟨hn, j, hj, -⟩ := tokenAt_quoted_iff.1 h
  obtain ⟨hn', j', hj', -⟩ := tokenAt_quoted_iff.1 h'
  rw [hj, List.cons.injEq] at hj'
  have hc := cut?_append hn j
  rw [hj'.2, cut?_append hn' j'] at hc
  have he := (Prod.mk.inj (Option.some.inj hc)).1
  exact (String.toList_injective he).symm

theorem bang_of_notEqual (h : TokenAt .notEqual l m) (h' : TokenAt .bang l k) :
    ∃ j, k = '=' :: j ∧ m = skipBlanks j := by
  obtain ⟨j, hj, rfl⟩ := (tokenAt_sign_iff rfl).1 h
  obtain ⟨j', hj', rfl⟩ := (tokenAt_sign_iff rfl).1 h'
  rw [hj] at hj'
  cases hj'
  exact ⟨j, skipBlanks_cons_of_not (by decide) j, rfl⟩

theorem unique (h : TokenAt t l m) (h' : TokenAt u l k) :
    t = u ∨ t = .notEqual ∧ u = .bang ∨ t = .bang ∧ u = .notEqual := by
  have hstart := h.same_start h'
  have hkeyword : ∀ word, t.keyword? = some word → t = u := by
    intro word ht
    rw [Token.start_of_keyword? ht] at hstart
    obtain ⟨word', hu⟩ := Token.exists_keyword? hstart.symm
    exact Token.eq_of_keyword? ht hu (h.same_keyword ht hu h')
  cases t with
  | quoted s =>
    cases u with
    | quoted s' => exact .inl (by rw [h.quoted_unique h'])
    | _ => simp [Token.start] at hstart
  | and => exact .inl (hkeyword _ rfl)
  | or => exact .inl (hkeyword _ rfl)
  | predicate p => exact .inl (hkeyword _ rfl)
  | _ =>
    cases u <;> first
      | exact .inl rfl
      | exact .inr (.inl ⟨rfl, rfl⟩)
      | exact .inr (.inr ⟨rfl, rfl⟩)
      | simp [Token.start] at hstart

end TokenAt

def signs (l : List Char) : Nat := (l.takeWhile (· == '=')).length

theorem signs_cons_of_ne {c : Char} (h : c ≠ '=') (l : List Char) : signs (c :: l) = 0 := by
  simp [signs, h]

theorem signs_cons (l : List Char) : signs ('=' :: l) = signs l + 1 := by
  simp [signs]

theorem eq_nil_or_signs_eq_zero {blanks : List Char} (h : ∀ c ∈ blanks, isBlank c = true)
    (l : List Char) : blanks = [] ∨ signs (blanks ++ l) = 0 := by
  cases blanks with
  | nil => exact .inl rfl
  | cons c blanks =>
    right
    apply signs_cons_of_ne
    intro hc
    subst hc
    exact absurd (h '=' List.mem_cons_self) (by decide)

theorem Token.eq_equal_of_start {t : Token} (h : startOf '=' = t.start) : t = .equal := by
  cases t <;> first
    | rfl
    | simp [Token.start, startOf] at h

/-- In a layout `=` stands twice or not at all. -/
theorem LaidOut.even_signs {ts : List Token} {l : List Char} (h : LaidOut ts l []) :
    signs l % 2 = 0 := by
  generalize hr : ([] : List Char) = rest at h
  induction h with
  | @nil blanks rest hb =>
    subst hr
    rcases eq_nil_or_signs_eq_zero hb [] with rfl | h
    · rfl
    · rw [h]
  | @cons blanks w k _ t ts hb hw _ _ ih =>
    have ih := ih hr
    rcases eq_nil_or_signs_eq_zero hb (w ++ k) with rfl | h
    · rw [List.nil_append]
      obtain ⟨c, w', hw', hc⟩ := hw.head
      by_cases he : c = '='
      · subst he
        rw [Token.eq_equal_of_start hc] at hw
        cases hw with
        | sign ht =>
          cases ht
          show signs ('=' :: '=' :: k) % 2 = 0
          rw [signs_cons, signs_cons]
          omega
        | keyword ht => cases ht
      · rw [hw', List.cons_append, signs_cons_of_ne he]
    · rw [h]

theorem LaidOut.not_bang_notEqual {ts us : List Token} {l m k : List Char}
    (h : TokenAt .notEqual l m) (h' : TokenAt .bang l k) (hm : LaidOut ts m [])
    (hk : LaidOut us k []) : False := by
  obtain ⟨j, rfl, rfl⟩ := h.bang_of_notEqual h'
  have hj := hm.of_skipBlanks.even_signs
  have hk := hk.even_signs
  rw [signs_cons] at hk
  omega

theorem LaidOut.not_nil_cons {t : Token} {ts : List Token} {l : List Char} (h : LaidOut [] l [])
    (h' : LaidOut (t :: ts) l []) : False := by
  obtain ⟨m, ht, -⟩ := (laidOut_cons_iff rfl).1 h'
  obtain ⟨c, k, hl, -⟩ := ht.head
  rw [(laidOut_nil_iff rfl).1 h] at hl
  cases hl

/-- No text is the layout of two sequences of tokens. -/
theorem LaidOut.unique {ts us : List Token} {l : List Char} (h : LaidOut ts l [])
    (h' : LaidOut us l []) : ts = us := by
  induction ts generalizing us l with
  | nil =>
    cases us with
    | nil => rfl
    | cons u us => exact (h.not_nil_cons h').elim
  | cons t ts ih =>
    cases us with
    | nil => exact (h'.not_nil_cons h).elim
    | cons u us =>
      obtain ⟨m, ht, hm⟩ := (laidOut_cons_iff rfl).1 h
      obtain ⟨k, hu, hk⟩ := (laidOut_cons_iff rfl).1 h'
      rcases ht.unique hu with rfl | ⟨rfl, rfl⟩ | ⟨rfl, rfl⟩
      · rw [ht.rest_unique hu] at hm
        rw [ih hm hk]
      · exact (LaidOut.not_bang_notEqual ht hu hm hk).elim
      · exact (LaidOut.not_bang_notEqual hu ht hk hm).elim

end StudioMake.Condition
