import StudioMake.Proofs.Condition.EnumerationOrder
import StudioMake.Proofs.Condition.Printing
import StudioMake.Proofs.Text.LetterCase

/-!
# Conditions and letter case

Conditions whose texts differ in the case of letters only parse alike, and their operands name the
same properties up to letter case. Where no two properties have one name up to letter case, such
operands expand to texts that differ in the case of letters only, and every test but the one for a
path takes them for the same.
-/

set_option autoImplicit false

namespace StudioMake

open Text

inductive Part.Alike : Part → Part → Prop
  | text {s t : String} (h : sameIgnoringCase s t = true) : Alike (.text s) (.text t)
  | property {name other : String} (h : sameIgnoringCase name other = true) :
      Alike (.property name) (.property other)

namespace Operand

abbrev Alike (a a' : Operand) : Prop := List.Forall₂ Part.Alike a a'

theorem splitFrom_unclosed {text rest : List Char} (h : cut? ')' rest = none) :
    splitFrom text ('$' :: '(' :: rest) = textPart (text ++ '$' :: '(' :: rest) := by
  grind [splitFrom]

theorem splitFrom_closed {text rest name after : List Char}
    (h : cut? ')' rest = some (name, after)) :
    splitFrom text ('$' :: '(' :: rest) =
      textPart text ++ .property (String.ofList name) :: splitFrom [] after := by
  grind [splitFrom]

theorem splitFrom_copy {text : List Char} {c : Char} {rest : List Char}
    (h : ∀ after, c = '$' → rest = '(' :: after → False) :
    splitFrom text (c :: rest) = splitFrom (text ++ [c]) rest := by
  grind [splitFrom]

theorem alike_textPart {text text' : List Char} (h : Text.Alike text text') :
    Alike (textPart text) (textPart text') := by
  cases h with
  | nil => exact .nil
  | cons hc h =>
    refine .cons (.text ?_) .nil
    rw [sameIgnoringCase_iff_alike, String.toList_ofList, String.toList_ofList]
    exact .cons hc h

theorem eq_opening_of_alike {c d : Char} {rest rest' : List Char} (hc : c.toLower = d.toLower)
    (h : Text.Alike rest rest') {after : List Char} (hd : d = '$') (hr : rest' = '(' :: after) :
    ∃ before, c = '$' ∧ rest = '(' :: before := by
  subst hr
  cases h with
  | @cons e _ before _ he _ =>
    obtain rfl : e = '(' := (eq_iff_eq he (by decide)).2 rfl
    exact ⟨before, (eq_iff_eq hc (by decide)).2 hd, rfl⟩

theorem alike_splitFrom {text text' l l' : List Char} (ht : Text.Alike text text')
    (hl : Text.Alike l l') : Alike (splitFrom text l) (splitFrom text' l') := by
  fun_induction splitFrom text l generalizing text' l' with
  | case1 text =>
    obtain rfl := List.forall₂_nil_left_iff.1 hl
    rw [splitFrom]
    exact alike_textPart ht
  | case2 text rest hcut =>
    obtain _ | ⟨hd, _ | ⟨ho, hrest⟩⟩ := hl
    obtain rfl := (eq_iff_eq hd (by decide)).1 rfl
    obtain rfl := (eq_iff_eq ho (by decide)).1 rfl
    rw [splitFrom_unclosed (Text.Alike.cut?_eq_none hrest (by decide) hcut)]
    exact alike_textPart (ht.append (.cons rfl (.cons rfl hrest)))
  | case3 text rest name after hcut _ ih =>
    obtain _ | ⟨hd, _ | ⟨ho, hrest⟩⟩ := hl
    obtain rfl := (eq_iff_eq hd (by decide)).1 rfl
    obtain rfl := (eq_iff_eq ho (by decide)).1 rfl
    obtain ⟨name', after', hcut', hname, hafter⟩ :=
      Text.Alike.cut? hrest (by decide) hcut
    rw [splitFrom_closed hcut']
    refine List.rel_append (alike_textPart ht) (.cons (.property ?_) (ih .nil hafter))
    rwa [sameIgnoringCase_iff_alike, String.toList_ofList, String.toList_ofList]
  | case4 text c rest hcopy ih =>
    obtain _ | ⟨hd, hrest⟩ := hl
    rw [splitFrom_copy]
    · exact ih (ht.append (.cons hd .nil)) hrest
    · intro after hc hr
      obtain ⟨before, hc, hr⟩ := eq_opening_of_alike hd hrest hc hr
      exact hcopy before hc hr

end Operand

namespace Condition

inductive Alike : Condition → Condition → Prop
  | equal {a a' b b' : Operand} (ha : a.Alike a') (hb : b.Alike b') :
      Alike (.equal a b) (.equal a' b')
  | notEqual {a a' b b' : Operand} (ha : a.Alike a') (hb : b.Alike b') :
      Alike (.notEqual a b) (.notEqual a' b')
  | call {p : Predicate} {a a' : Operand} (ha : a.Alike a') : Alike (.call p a) (.call p a')
  | not {c c' : Condition} (h : Alike c c') : Alike (.not c) (.not c')
  | and {c c' d d' : Condition} (hc : Alike c c') (hd : Alike d d') :
      Alike (.and c d) (.and c' d')
  | or {c c' d d' : Condition} (hc : Alike c c') (hd : Alike d d') : Alike (.or c d) (.or c' d')

open Reader (Respects)

theorem respects_quoted : Respects Operand.Alike quoted := by
  refine ((Respects.just (by decide)).right (.upTo (by decide))).map ?_
  intro s s' hs
  refine Operand.alike_splitFrom .nil ?_
  rwa [String.toList_ofList, String.toList_ofList]

theorem respects_comparator :
    Respects (fun f g => ∀ a a' b b', Operand.Alike a a' → Operand.Alike b b' →
      Alike (f a b) (g a' b')) comparator := by
  refine .orElse ?_ ?_
  · refine ((Respects.just (by decide)).right (.just (by decide))).map ?_
    intro _ _ _ a a' b b' ha hb
    exact .equal ha hb
  · refine ((Respects.just (by decide)).right (.just (by decide))).map ?_
    intro _ _ _ a a' b b' ha hb
    exact .notEqual ha hb

theorem respects_comparison : Respects Alike comparison := by
  refine ((respects_quoted.padded.andThen respects_comparator.padded).andThen
    respects_quoted.padded).map ?_
  rintro ⟨⟨a, f⟩, b⟩ ⟨⟨a', f'⟩, b'⟩ ⟨⟨ha, hf⟩, hb⟩
  exact hf a a' b b' ha hb

theorem respects_keyword (word : String) : Respects (fun _ _ => True) (keyword word) := by
  refine (((Respects.run fun _ _ => isAlpha_eq).filter ?_).map fun _ _ _ => trivial).padded
  intro l l' hl hw
  rw [sameIgnoringCase_iff_alike, String.toList_ofList] at hw ⊢
  rw [alike_iff] at hl hw ⊢
  rw [← hl, hw]

theorem respects_predicate (p : Predicate) : Respects Eq (predicate p) :=
  (respects_keyword p.keyword).map fun _ _ _ => rfl

theorem respects_application : Respects Alike application := by
  refine (((respects_predicate _).orElse (respects_predicate _)).andThen
    (respects_quoted.padded.delimited (.just (by decide)) (.just (by decide)))).map ?_
  rintro ⟨p, a⟩ ⟨_, a'⟩ ⟨rfl, ha⟩
  exact .call ha

section Levels

variable {r : Reader Condition} (h : Respects Alike r)

include h

theorem respects_group : Respects Alike (group r) :=
  h.delimited (Respects.just (by decide)).padded (Respects.just (by decide)).padded

theorem respects_atom : Respects Alike (atom r) :=
  (respects_comparison.orElse (respects_application.orElse (respects_group h))).padded

theorem respects_negation : Respects Alike (negation r) := by
  refine .recursive fun n hn => ?_
  exact (((Respects.just (by decide)).padded.right hn).map fun _ _ => .not).orElse
    (respects_atom h)

theorem respects_conjunction : Respects Alike (conjunction r) :=
  (respects_negation h).foldl ((respects_keyword "and").right (respects_negation h))
    fun _ _ _ _ => .and

theorem respects_disjunction : Respects Alike (disjunction r) :=
  (respects_conjunction h).foldl ((respects_keyword "or").right (respects_conjunction h))
    fun _ _ _ _ => .or

end Levels

theorem respects_condition : Respects Alike condition :=
  .recursive fun _ h => respects_disjunction h

variable {s s' : String} {c c' : Condition}

theorem exists_parse?_of_same (hs : sameIgnoringCase s s' = true) (h : parse? s = some c) :
    ∃ c', parse? s' = some c' ∧ Alike c c' := by
  rw [parse?_eq_some_iff_reads] at h
  obtain ⟨c', rest, hr, hc, hn⟩ :=
    respects_condition _ _ _ _ (sameIgnoringCase_iff_alike.1 hs) h
  obtain rfl := List.forall₂_nil_left_iff.1 hn
  exact ⟨c', parse?_eq_some_iff_reads.2 hr, hc⟩

theorem parse?_eq_none_of_same (hs : sameIgnoringCase s s' = true) (h : parse? s = none) :
    parse? s' = none := by
  rw [Option.eq_none_iff_forall_ne_some] at h ⊢
  intro c' hc'
  have hs' : sameIgnoringCase s' s = true := by
    rw [sameIgnoringCase_iff] at hs ⊢
    exact hs.symm
  obtain ⟨c, hc, -⟩ := exists_parse?_of_same hs' hc'
  exact h c hc

end Condition

namespace OrderedMap

/-- No two keys are the same up to letter case. -/
def CaseDistinct {α : Type} (m : OrderedMap α) : Prop :=
  ∀ a ∈ m.keys, ∀ b ∈ m.keys, sameIgnoringCase a b = true → a = b

instance {α : Type} (m : OrderedMap α) : Decidable m.CaseDistinct :=
  inferInstanceAs (Decidable (∀ a ∈ m.keys, _))

theorem mem_keys_of_find? {α : Type} (m : OrderedMap α) {key : String} {value : α}
    (h : m.find? key = some value) : key ∈ m.keys :=
  List.mem_map_of_mem (m.mem_toList_iff.2 h)

theorem CaseDistinct.findIgnoringCase?_eq {α : Type} {m : OrderedMap α} (hm : m.CaseDistinct)
    {key name : String} {value : α} (hk : m.find? key = some value)
    (hs : sameIgnoringCase key name = true) : m.findIgnoringCase? name = some (key, value) := by
  cases hf : m.findIgnoringCase? name with
  | none => exact absurd hs (List.find?_eq_none.1 hf _ (m.mem_toList_iff.2 hk))
  | some entry =>
    obtain ⟨other, value'⟩ := entry
    have ho := m.mem_toList_iff.1 (List.mem_of_find?_eq_some hf)
    have hos := List.find?_some hf
    obtain rfl : key = other := by
      apply hm key (m.mem_keys_of_find? hk) other (m.mem_keys_of_find? ho)
      rw [sameIgnoringCase_iff] at hs hos ⊢
      rw [hs, hos]
    rw [Option.some.inj (hk.symm.trans ho)]

/-- The same keys with values that differ in the case of letters only. -/
def Recased (m m' : OrderedMap String) : Prop :=
  ∀ key, Option.Rel (fun value value' => sameIgnoringCase value value' = true)
    (m.find? key) (m'.find? key)

variable {m m' : OrderedMap String}

theorem Recased.mem_keys_iff (h : m.Recased m') (key : String) : key ∈ m.keys ↔ key ∈ m'.keys := by
  rw [← not_iff_not, ← find?_eq_none_iff, ← find?_eq_none_iff]
  have hk := h key
  generalize m.find? key = value at hk
  generalize m'.find? key = value' at hk
  cases hk <;> simp

theorem Recased.caseDistinct (h : m.Recased m') (hm : m.CaseDistinct) : m'.CaseDistinct := by
  intro a ha b hb
  exact hm a ((h.mem_keys_iff a).2 ha) b ((h.mem_keys_iff b).2 hb)

theorem Recased.exists_value (h : m.Recased m') {key value : String}
    (hv : m.find? key = some value) :
    ∃ value', m'.find? key = some value' ∧ sameIgnoringCase value value' = true := by
  have hk := h key
  rw [hv] at hk
  generalize hv' : m'.find? key = found at hk
  cases hk with
  | some hs => exact ⟨_, rfl, hs⟩

end OrderedMap

namespace Condition

variable {s s' : String} {c c' : Condition} {scope scope' : Scope} {m m' : OrderedMap String}
  {directory : String} {fs : FileSystem}

namespace Scope

theorem property_of_same (hm : m.CaseDistinct) {key name value : String}
    (hk : m.find? key = some value) (hs : sameIgnoringCase key name = true) :
    property ⟨m, directory, fs⟩ name = value := by
  by_cases hn : name ∈ m.keys
  · obtain rfl := hm key (m.mem_keys_of_find? hk) name hn hs
    exact property_of_key hk
  · rw [property_of_notKey hn, hm.findIgnoringCase?_eq hk hs]
    rfl

theorem property_of_no_key {name : String}
    (hn : ∀ key ∈ m.keys, sameIgnoringCase key name = false) :
    property ⟨m, directory, fs⟩ name = "" := by
  have hk : name ∉ m.keys := by
    intro hk
    have hs := hn name hk
    rw [sameIgnoringCase_self] at hs
    cases hs
  have hf : m.findIgnoringCase? name = none := by
    rw [OrderedMap.findIgnoringCase?, List.find?_eq_none]
    intro entry he
    rw [hn entry.1 (List.mem_map_of_mem he)]
    exact Bool.false_ne_true
  rw [property_of_notKey hk, hf]
  rfl

def Alike (scope scope' : Scope) : Prop :=
  ∀ name name', sameIgnoringCase name name' = true →
    sameIgnoringCase (scope.property name) (scope'.property name') = true

theorem alike_of_recased (hm : m.CaseDistinct) (hv : m.Recased m') :
    Alike ⟨m, directory, fs⟩ ⟨m', directory, fs⟩ := by
  intro name name' hs
  rw [sameIgnoringCase_iff] at hs
  by_cases hk : ∃ key ∈ m.keys, sameIgnoringCase key name = true
  · obtain ⟨key, hk, hks⟩ := hk
    obtain ⟨⟨key, value⟩, he, rfl⟩ := List.mem_map.1 hk
    have hf := m.mem_toList_iff.1 he
    obtain ⟨value', hf', hvs⟩ := hv.exists_value hf
    have hks' : sameIgnoringCase key name' = true := by
      rw [sameIgnoringCase_iff] at hks ⊢
      rw [hks, hs]
    rw [property_of_same hm hf hks, property_of_same (hv.caseDistinct hm) hf' hks']
    exact hvs
  · have hno : ∀ key ∈ m.keys, sameIgnoringCase key name = false := by
      intro key hkey
      rw [Bool.eq_false_iff]
      exact fun hks => hk ⟨key, hkey, hks⟩
    have hno' : ∀ key ∈ m'.keys, sameIgnoringCase key name' = false := by
      intro key hkey
      rw [← hno key ((hv.mem_keys_iff key).2 hkey), sameIgnoringCase, sameIgnoringCase, hs]
    rw [property_of_no_key hno, property_of_no_key hno']
    exact sameIgnoringCase_self ""

theorem Alike.expandPart (h : Alike scope scope') {p p' : Part} (hp : p.Alike p') :
    sameIgnoringCase (scope.expandPart p) (scope'.expandPart p') = true := by
  cases hp with
  | text hs => exact hs
  | property hs => exact h _ _ hs

theorem Alike.expand (h : Alike scope scope') {a a' : Operand} (ha : a.Alike a') :
    sameIgnoringCase (scope.expand a) (scope'.expand a') = true := by
  rw [sameIgnoringCase_iff_alike, Scope.expand, Scope.expand, String.toList_join,
    String.toList_join, List.flatMap_map, List.flatMap_map]
  induction ha with
  | nil => exact .nil
  | cons hp _ ih =>
    rw [List.flatMap_cons, List.flatMap_cons]
    exact (sameIgnoringCase_iff_alike.1 (h.expandPart hp)).append ih

end Scope

/-- A function is called somewhere in the condition. -/
def Calls (p : Predicate) : Condition → Prop
  | .equal _ _ => False
  | .notEqual _ _ => False
  | .call q _ => q = p
  | .not c => c.Calls p
  | .and c d => c.Calls p ∨ d.Calls p
  | .or c d => c.Calls p ∨ d.Calls p

theorem same_eq_same {a a' b b' : String} (ha : sameIgnoringCase a a' = true)
    (hb : sameIgnoringCase b b' = true) : sameIgnoringCase a b = sameIgnoringCase a' b' := by
  rw [sameIgnoringCase_iff] at ha hb
  rw [sameIgnoringCase, sameIgnoringCase, ha, hb]

theorem isSeparator_eq {c d : Char} (h : c.toLower = d.toLower) :
    Path.isSeparator c = Path.isSeparator d := by
  rw [Bool.eq_iff_iff]
  simp only [Path.isSeparator, Bool.or_eq_true, beq_iff_eq]
  rw [eq_iff_eq h (by decide), eq_iff_eq h (by decide)]

theorem any_getLast?_eq {l l' : List Char} (h : Text.Alike l l') :
    l.getLast?.any Path.isSeparator = l'.getLast?.any Path.isSeparator := by
  rw [← List.head?_reverse, ← List.head?_reverse]
  have hr : Text.Alike l.reverse l'.reverse := List.forall₂_reverse_iff.2 h
  generalize l.reverse = k at hr
  generalize l'.reverse = k' at hr
  cases hr with
  | nil => rfl
  | cons hc _ => exact isSeparator_eq hc

/-- Only the test for a path sees the case of letters. -/
theorem Alike.eval_eq (h : Alike c c') (hs : scope.Alike scope') (hp : ¬ c.Calls .pathExists) :
    eval scope c = eval scope' c' := by
  induction h with
  | equal ha hb => rw [eval, eval, same_eq_same (hs.expand ha) (hs.expand hb)]
  | notEqual ha hb => rw [eval, eval, same_eq_same (hs.expand ha) (hs.expand hb)]
  | @call p _ _ ha =>
    cases p with
    | pathExists => exact absurd rfl hp
    | hasTrailingSlash =>
      rw [eval, eval, any_getLast?_eq (sameIgnoringCase_iff_alike.1 (hs.expand ha))]
  | not _ ih => rw [eval, eval, ih hp]
  | and _ _ ihc ihd =>
    rw [Calls, not_or] at hp
    rw [eval, eval, ihc hp.1, ihd hp.2]
  | or _ _ ihc ihd =>
    rw [Calls, not_or] at hp
    rw [eval, eval, ihc hp.1, ihd hp.2]

theorem isAllBlank_eq (hs : sameIgnoringCase s s' = true) : isAllBlank s = isAllBlank s' :=
  (sameIgnoringCase_iff_alike.1 hs).all_eq fun _ _ => isBlank_eq

theorem holds_of_parse? {text : String} (hb : isAllBlank text = false)
    (hc : parse? text = some c) : holds scope (some text) = .ok (eval scope c) := by
  simp [holds, hb, hc]

theorem holds_of_no_parse {text : String} (hb : isAllBlank text = false)
    (hc : parse? text = none) : holds scope (some text) = .error (.malformedCondition text) := by
  simp [holds, hb, hc]

theorem holds_of_blank {text : String} (hb : isAllBlank text = true) :
    holds scope (some text) = .ok true := by
  simp [holds, hb]

/-- Texts of conditions, and values of properties, that differ in the case of letters only make no
difference where no two properties have one name up to letter case: both conditions are malformed
or neither is, and without a test for a path both hold or neither does. -/
theorem holds_ignores_case (hs : sameIgnoringCase s s' = true) (hm : m.CaseDistinct)
    (hv : m.Recased m') (directory : String) (fs : FileSystem) :
    ((∃ x, holds ⟨m, directory, fs⟩ (some s) = .error x) ↔
      ∃ x, holds ⟨m', directory, fs⟩ (some s') = .error x) ∧
    ((∀ c, parse? s = some c → ¬ c.Calls .pathExists) →
      ∀ b, holds ⟨m, directory, fs⟩ (some s) = .ok b ↔
        holds ⟨m', directory, fs⟩ (some s') = .ok b) := by
  have hb := isAllBlank_eq hs
  cases hblank : isAllBlank s with
  | true =>
    rw [hblank] at hb
    rw [holds_of_blank hblank, holds_of_blank hb.symm]
    exact ⟨by simp, fun _ _ => .rfl⟩
  | false =>
    rw [hblank] at hb
    cases hc : parse? s with
    | none =>
      rw [holds_of_no_parse hblank hc, holds_of_no_parse hb.symm (parse?_eq_none_of_same hs hc)]
      exact ⟨by simp, by simp⟩
    | some c =>
      obtain ⟨c', hc', h⟩ := exists_parse?_of_same hs hc
      rw [holds_of_parse? hblank hc, holds_of_parse? hb.symm hc']
      refine ⟨by simp, fun hp b => ?_⟩
      rw [h.eval_eq (Scope.alike_of_recased hm hv) (hp c rfl)]

def buildModes : OrderedMap String := .ofList [("mode", "Fast"), ("Out", "bin")]

def recasedModes : OrderedMap String := .ofList [("Out", "BIN"), ("mode", "fAST")]

theorem recased_buildModes : buildModes.Recased recasedModes := by
  intro key
  by_cases hm : key = "mode"
  · subst hm
    exact .some (by decide)
  · by_cases ho : key = "Out"
    · subst ho
      exact .some (by decide)
    · have hn : buildModes.find? key = none :=
        (OrderedMap.find?_eq_none_iff _ _).2 (by simpa [show buildModes.keys = ["mode", "Out"]
          from rfl] using ⟨hm, ho⟩)
      have hn' : recasedModes.find? key = none :=
        (OrderedMap.find?_eq_none_iff _ _).2 (by simpa [show recasedModes.keys = ["Out", "mode"]
          from rfl] using ⟨ho, hm⟩)
      rw [hn, hn']
      exact .none

theorem holds_ignores_case_recased :
    let s := "'$(Mode)x' == 'FASTX' and !HasTrailingSlash('$(OUT)')"
    let s' := "'$(MODE)X' == 'fastx' And !hastrailingslash('$(out)')"
    sameIgnoringCase s s' = true ∧ buildModes.CaseDistinct ∧ buildModes.Recased recasedModes ∧
      (∀ c, parse? s = some c → ¬ c.Calls .pathExists) ∧
      holds ⟨buildModes, "/work", {}⟩ (some s) = .ok true ∧
      holds ⟨recasedModes, "/work", {}⟩ (some s') = .ok true := by
  intro s s'
  have hc : parse? s = some (.and
      (.equal [.property "Mode", .text "x"] [.text "FASTX"])
      (.not (.call .hasTrailingSlash [.property "OUT"]))) := by decide +kernel
  have hs : sameIgnoringCase s s' = true := by decide +kernel
  have hm : buildModes.CaseDistinct := by decide
  have hp : ∀ c, parse? s = some c → ¬ c.Calls .pathExists := by
    intro c h
    rw [hc] at h
    cases h
    simp [Calls]
  have hh : holds ⟨buildModes, "/work", {}⟩ (some s) = .ok true := by
    rw [holds_of_parse? (by decide +kernel) hc]
    exact congrArg Except.ok (by decide +kernel)
  refine ⟨hs, hm, recased_buildModes, hp, hh, ?_⟩
  exact ((holds_ignores_case hs hm recased_buildModes "/work" {}).2 hp true).1 hh

end Condition

end StudioMake
