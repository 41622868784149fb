import Mathlib.Data.List.Induction
import Mathlib.Logic.Relation
import StudioMake.Path.Normal

/-!
# The lexical form of a path

A path is simplified by leaving out empty pieces and `.`, and by cancelling a name against the
climb right behind it. What remains is a number of climbs and then names, in whatever order this
is done. A resolved path has the same names, but of the climbs it keeps only whether their number
is odd.
-/

set_option autoImplicit false

namespace StudioMake

open Relation

def IsName (piece : String) : Prop := piece ≠ "" ∧ piece ≠ "." ∧ piece ≠ ".."

instance : DecidablePred IsName :=
  fun piece => inferInstanceAs (Decidable (piece ≠ "" ∧ piece ≠ "." ∧ piece ≠ ".."))

/-- One step of the simplification of a path. -/
inductive Simplifies : List String → List String → Prop
  | empty (front rest : List String) : Simplifies (front ++ "" :: rest) (front ++ rest)
  | here (front rest : List String) : Simplifies (front ++ "." :: rest) (front ++ rest)
  | climb (front rest : List String) {name : String} (h : IsName name) :
      Simplifies (front ++ name :: ".." :: rest) (front ++ rest)

/-- A path can be simplified to climbs followed by names. -/
structure HasForm (pieces : List String) (climbs : Nat) (names : List String) : Prop where
  reaches : ReflTransGen Simplifies pieces (List.replicate climbs ".." ++ names)
  isName : ∀ name ∈ names, IsName name

/-- Climbs and names after one more piece: a climb takes the last name if there is one. -/
def settle (form : Nat × List String) (piece : String) : Nat × List String :=
  if piece = "" ∨ piece = "." then form
  else if piece = ".." then
    if form.2 = [] then (form.1 + 1, []) else (form.1, form.2.dropLast)
  else (form.1, form.2 ++ [piece])

def lexicalForm (pieces : List String) : Nat × List String := pieces.foldl settle (0, [])

theorem settle_of_isName {piece : String} (h : IsName piece) (form : Nat × List String) :
    settle form piece = (form.1, form.2 ++ [piece]) := by
  obtain ⟨hempty, hhere, hclimb⟩ := h
  simp [settle, hempty, hhere, hclimb]

theorem settle_climb_of_names (n : Nat) (names : List String) (name : String) :
    settle (n, names ++ [name]) ".." = (n, names) := by
  simp [settle]

theorem settle_climb_of_nil (n : Nat) : settle (n, []) ".." = (n + 1, []) := by
  simp [settle]

theorem foldl_settle_of_simplifies {l l' : List String} (h : Simplifies l l')
    (form : Nat × List String) : l.foldl settle form = l'.foldl settle form := by
  cases h with
  | empty front rest => simp [settle]
  | here front rest => simp [settle]
  | climb front rest h =>
    rw [List.foldl_append, List.foldl_cons, List.foldl_cons, settle_of_isName h,
      settle_climb_of_names, ← List.foldl_append]

theorem lexicalForm_of_reaches {l l' : List String} (h : ReflTransGen Simplifies l l') :
    lexicalForm l = lexicalForm l' := by
  induction h with
  | refl => rfl
  | tail _ hs ih => rw [ih, lexicalForm, foldl_settle_of_simplifies hs, lexicalForm]

theorem foldl_settle_replicate (n m : Nat) :
    (List.replicate n "..").foldl settle (m, []) = (m + n, []) := by
  induction n generalizing m with
  | zero => rfl
  | succ n ih =>
    rw [List.replicate_succ, List.foldl_cons, settle_climb_of_nil, ih, Nat.add_assoc,
      Nat.add_comm 1]

theorem foldl_settle_names {names : List String} (h : ∀ name ∈ names, IsName name)
    (form : Nat × List String) : names.foldl settle form = (form.1, form.2 ++ names) := by
  induction names generalizing form with
  | nil => simp
  | cons name rest ih =>
    rw [List.forall_mem_cons] at h
    rw [List.foldl_cons, settle_of_isName h.1, ih h.2, List.append_assoc, List.singleton_append]

theorem HasForm.lexicalForm_eq {pieces names : List String} {n : Nat}
    (h : HasForm pieces n names) : lexicalForm pieces = (n, names) := by
  rw [lexicalForm_of_reaches h.reaches, lexicalForm, List.foldl_append, foldl_settle_replicate,
    foldl_settle_names h.isName, Nat.zero_add, List.nil_append]

theorem Simplifies.append {l l' : List String} (h : Simplifies l l') (more : List String) :
    Simplifies (l ++ more) (l' ++ more) := by
  cases h with
  | empty front rest => simpa using Simplifies.empty front (rest ++ more)
  | here front rest => simpa using Simplifies.here front (rest ++ more)
  | climb front rest h => simpa using Simplifies.climb front (rest ++ more) h

theorem reaches_append {l l' : List String} (h : ReflTransGen Simplifies l l')
    (more : List String) : ReflTransGen Simplifies (l ++ more) (l' ++ more) := by
  induction h with
  | refl => exact .refl
  | tail _ hs ih => exact ih.tail (hs.append more)

theorem HasForm.concat {pieces names : List String} {n : Nat} (h : HasForm pieces n names)
    (piece : String) :
    HasForm (pieces ++ [piece]) (settle (n, names) piece).1 (settle (n, names) piece).2 := by
  have hr := reaches_append h.reaches [piece]
  rw [List.append_assoc] at hr
  by_cases hempty : piece = ""
  · subst hempty
    have hs := Simplifies.empty (List.replicate n ".." ++ names) []
    rw [List.append_assoc, List.append_nil] at hs
    exact ⟨hr.tail hs, h.isName⟩
  by_cases hhere : piece = "."
  · subst hhere
    have hs := Simplifies.here (List.replicate n ".." ++ names) []
    rw [List.append_assoc, List.append_nil] at hs
    exact ⟨hr.tail hs, h.isName⟩
  by_cases hclimb : piece = ".."
  · subst hclimb
    rcases List.eq_nil_or_concat names with rfl | ⟨init, last, rfl⟩
    · rw [settle_climb_of_nil]
      refine ⟨?_, h.isName⟩
      rwa [List.replicate_succ', List.append_nil]
    · have hl : IsName last := h.isName last (by simp)
      have hs := Simplifies.climb (List.replicate n ".." ++ init) [] hl
      rw [List.concat_eq_append, settle_climb_of_names]
      refine ⟨hr.tail (by simpa using hs), ?_⟩
      intro name hm
      exact h.isName name (by simp [hm])
  · have hn : IsName piece := ⟨hempty, hhere, hclimb⟩
    rw [settle_of_isName hn]
    refine ⟨hr, ?_⟩
    intro name hm
    rcases List.mem_append.1 hm with hm | hm
    · exact h.isName name hm
    · rwa [List.mem_singleton.1 hm]

theorem hasForm_lexicalForm (pieces : List String) :
    HasForm pieces (lexicalForm pieces).1 (lexicalForm pieces).2 := by
  induction pieces using List.reverseRecOn with
  | nil => exact ⟨.refl, by simp [lexicalForm]⟩
  | append_singleton pieces piece ih =>
    have hc := ih.concat piece
    rwa [lexicalForm, List.foldl_append]

theorem hasForm_iff {pieces names : List String} {n : Nat} :
    HasForm pieces n names ↔ lexicalForm pieces = (n, names) := by
  constructor
  · exact HasForm.lexicalForm_eq
  · intro h
    have hf := hasForm_lexicalForm pieces
    rwa [h] at hf

namespace NormalPath

/-- What a resolved path keeps of climbs and names. -/
def ofForm (rooted : Bool) (form : Nat × List String) : NormalPath :=
  ⟨rooted, decide (form.1 % 2 = 1), form.2⟩

theorem follow_ofForm (rooted : Bool) (form : Nat × List String) {piece : String}
    (h : piece ≠ "" ∧ piece ≠ ".") :
    (ofForm rooted form).follow piece = ofForm rooted (settle form piece) := by
  obtain ⟨n, names⟩ := form
  by_cases hclimb : piece = ".."
  · subst hclimb
    rcases List.eq_nil_or_concat names with rfl | ⟨init, last, rfl⟩
    · rw [settle_climb_of_nil]
      have hodd : decide ((n + 1) % 2 = 1) = !decide (n % 2 = 1) := by
        rw [← decide_not, decide_eq_decide]
        omega
      simp only [follow, ofForm, hodd, if_true]
    · rw [List.concat_eq_append, settle_climb_of_names]
      simp [follow, ofForm]
  · rw [settle_of_isName ⟨h.1, h.2, hclimb⟩]
    simp [follow, ofForm, hclimb]

theorem foldl_follow_ofForm (rooted : Bool) (pieces : List String) (form : Nat × List String) :
    (pieces.filter fun piece => piece ≠ "" && piece ≠ ".").foldl follow (ofForm rooted form) =
      ofForm rooted (pieces.foldl settle form) := by
  induction pieces generalizing form with
  | nil => rfl
  | cons piece rest ih =>
    by_cases h : piece ≠ "" ∧ piece ≠ "."
    · rw [List.filter_cons_of_pos (by simpa using h), List.foldl_cons, follow_ofForm _ _ h, ih,
        List.foldl_cons]
    · have hs : settle form piece = form := by
        rw [settle, if_pos]
        by_cases hempty : piece = ""
        · exact .inl hempty
        · exact .inr (Classical.not_not.1 fun hn => h ⟨hempty, hn⟩)
      rw [List.filter_cons_of_neg (by simpa using h), ih, List.foldl_cons, hs]

theorem ofPath_eq (path : String) :
    ofPath path = ofForm (Path.isAbsolute path) (lexicalForm (Text.splitAll (· == '/') path)) :=
  foldl_follow_ofForm (Path.isAbsolute path) _ (0, [])

def joined (base text : String) : String := Path.join base (Path.slashes (Text.trim text))

def pieces (base text : String) : List String := Text.splitAll (· == '/') (joined base text)

/-- The segments of a path in lexical normal form: climbs are kept in front of a relative path, and
there are none above the root. -/
def lexicalSegments (rooted : Bool) (climbs : Nat) (names : List String) : List String :=
  (if rooted then [] else List.replicate climbs "..") ++ names

theorem segments_ofForm (rooted : Bool) (n : Nat) (names : List String) :
    (ofForm rooted (n, names)).segments = List.replicate (n % 2) ".." ++ names := by
  rcases Nat.mod_two_eq_zero_or_one n with h | h
  · simp [segments, ofForm, h]
  · simp [segments, ofForm, h]

theorem segments_ofForm_eq_iff (rooted : Bool) (n : Nat) (names : List String) :
    (ofForm rooted (n, names)).segments = lexicalSegments rooted n names ↔
      if rooted then n % 2 = 0 else n ≤ 1 := by
  rw [segments_ofForm, lexicalSegments, List.append_left_inj]
  cases rooted with
  | true => simp
  | false =>
    simp only [Bool.false_eq_true, if_false]
    constructor
    · intro h
      have hl := congrArg List.length h
      simp only [List.length_replicate] at hl
      omega
    · intro h
      rw [show n % 2 = n by omega]

/-- Every path has one number of climbs and one list of names that it simplifies to. Resolving
keeps the names, but of the climbs one or none, as their number is odd or even: hence the result
is the normal form exactly for at most one climb from a relative path, and for an even number of
climbs above the root; and two paths resolve alike exactly if they agree in where they start, in
their names and in the parity of their climbs. -/
theorem resolve_keeps_climbs_mod_two (base text : String) :
    ∃ n names,
      (∀ m others, HasForm (pieces base text) m others ↔ m = n ∧ others = names) ∧
      (resolve base text).rooted = Path.isAbsolute (joined base text) ∧
      (resolve base text).segments = List.replicate (n % 2) ".." ++ names ∧
      ((resolve base text).segments =
          lexicalSegments (Path.isAbsolute (joined base text)) n names ↔
        if Path.isAbsolute (joined base text) then n % 2 = 0 else n ≤ 1) ∧
      ∀ base' text' m others, HasForm (pieces base' text') m others →
        (resolve base' text' = resolve base text ↔
          Path.isAbsolute (joined base' text') = Path.isAbsolute (joined base text) ∧
            m % 2 = n % 2 ∧ others = names) := by
  have hr : ∀ base text, resolve base text =
      ofForm (Path.isAbsolute (joined base text)) (lexicalForm (pieces base text)) :=
    fun base text => ofPath_eq (joined base text)
  rw [hr base text]
  generalize hf : lexicalForm (pieces base text) = form
  obtain ⟨n, names⟩ := form
  refine ⟨n, names, ?_, rfl, segments_ofForm _ n names, segments_ofForm_eq_iff _ n names, ?_⟩
  · intro m others
    rw [hasForm_iff, hf, Prod.mk.injEq, eq_comm, @eq_comm _ names]
  · intro base' text' m others h
    rw [hr, h.lexicalForm_eq]
    have hodd : (m % 2 = 1 ↔ n % 2 = 1) ↔ m % 2 = n % 2 := by omega
    simp only [ofForm, mk.injEq, decide_eq_decide, hodd]

/-- Two climbs from a relative path are both lost, and one above the root is kept. -/
theorem climbs_lost_in_pairs :
    (HasForm (pieces "" "..\\..") 2 [] ∧ (resolve "" "..\\..").segments = []) ∧
    (HasForm (pieces "/" "..\\x") 1 ["x"] ∧ (resolve "/" "..\\x").segments = ["..", "x"]) ∧
    ¬ ∀ base text n names, HasForm (pieces base text) n names →
      (resolve base text).segments =
        lexicalSegments (Path.isAbsolute (joined base text)) n names := by
  have hform : HasForm (pieces "" "..\\..") 2 [] := hasForm_iff.2 (by decide +kernel)
  refine ⟨⟨hform, by decide +kernel⟩, ⟨hasForm_iff.2 (by decide +kernel), by decide +kernel⟩, ?_⟩
  intro h
  have hs := h "" "..\\.." 2 [] hform
  revert hs
  decide +kernel

end NormalPath

end StudioMake
