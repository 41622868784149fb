import Mathlib.Data.List.Forall2
import StudioMake.Makefile.Objects
import StudioMake.OrderedMap
import StudioMake.Project.Configuration

/-!
# References in a value

What GNU make makes of a value that is expanded where it is assigned. References to variables and
calls of the three functions that lists of objects need are replaced, and a value counts as the
words in it. A text that asks for more has no value here.

`Expands` says what a text is replaced by wherever it stands, and `Expands.call` puts a call
together from its arguments.
-/

set_option autoImplicit false

namespace StudioMake.Makefile

section Words

def isSpace (c : Char) : Bool := c == ' ' || ('\t' ≤ c && c ≤ '\r')

def words (s : String) : List String := (Text.splitAll isSpace s).filter (· ≠ "")

def unwords (l : List String) : String := " ".intercalate l

def trimStart (s : String) : String := String.ofList (s.toList.dropWhile isSpace)

structure IsWord (s : String) : Prop where
  ne_empty : s ≠ ""
  not_isSpace : ∀ c ∈ s.toList, isSpace c = false

instance : DecidablePred IsWord := fun s =>
  decidable_of_iff (s ≠ "" ∧ s.toList.all (!isSpace ·) = true)
    ⟨fun h => ⟨h.1, by simpa using h.2⟩, fun h => ⟨h.ne_empty, by simpa using h.not_isSpace⟩⟩

theorem words_append_space (a b : String) : words (a ++ " " ++ b) = words a ++ words b := by
  have h : (a ++ " " ++ b).toList = a.toList ++ ' ' :: b.toList := by simp
  have hs : isSpace ' ' = true := by decide
  simp [words, Text.splitAll, h, Text.pieces_append hs]

theorem IsWord.words_eq {s : String} (h : IsWord s) : words s = [s] := by
  have hp : Text.pieces isSpace s.toList = [s.toList] :=
    Text.pieces_of_not h.not_isSpace
  simp [words, Text.splitAll, hp, h.ne_empty]

theorem IsWord.toList_ne_nil {s : String} (h : IsWord s) : s.toList ≠ [] := by
  simpa using h.ne_empty

theorem IsWord.dropWhile_append {s : String} (h : IsWord s) (l : List Char) :
    (s.toList ++ l).dropWhile isSpace = s.toList ++ l := by
  obtain ⟨c, front, hc⟩ := List.exists_cons_of_ne_nil h.toList_ne_nil
  have hs : isSpace c = false := h.not_isSpace c (by simp [hc])
  simp [hc, hs]

theorem words_unwords {l : List String} (h : ∀ s ∈ l, IsWord s) : words (unwords l) = l := by
  induction l with
  | nil => decide
  | cons a l ih =>
    have ha := h a List.mem_cons_self
    cases l with
    | nil => exact ha.words_eq
    | cons b l =>
      rw [unwords, String.intercalate_cons_cons, words_append_space, ha.words_eq]
      exact congrArg (a :: ·) (ih fun s hs => h s (List.mem_cons_of_mem a hs))

def appendText (old text : String) : String :=
  if text = "" then old else if old = "" then text else old ++ " " ++ text

theorem words_appendText (old text : String) :
    words (appendText old text) = words old ++ words text := by
  have he : words "" = [] := by decide
  unfold appendText
  split
  · next ht => simp [ht, he]
  · split
    · next ho => simp [ho, he]
    · exact words_append_space old text

end Words

section Characters

theorem isSpace_of_isTargetChar {c : Char} (h : Configuration.isTargetChar c = true) :
    isSpace c = false := by
  have hn : ∀ n < 33, Configuration.isTargetChar (Char.ofNat n) = false := by decide
  by_contra hs
  have hc : c.toNat < 33 := by
    simp only [isSpace, Bool.not_eq_false, Bool.or_eq_true, beq_iff_eq, Bool.and_eq_true,
      decide_eq_true_eq, Char.le_def, UInt32.le_iff_toNat_le] at hs
    rcases hs with rfl | ⟨-, hs⟩
    · decide
    · have : '\r'.val.toNat = 13 := rfl
      show c.val.toNat < 33
      omega
  rw [← Char.ofNat_toNat c, hn c.toNat hc] at h
  cases h

def Consists (p : Char → Bool) (s : String) : Prop := ∀ c ∈ s.toList, p c = true

def isLiteral (c : Char) : Bool := !isSpace c && c ∉ ['$', '(', ')', ',']

/-- The characters that mean nothing to make wherever they stand in a value. -/
def isPlain (c : Char) : Bool := isLiteral c && c ∉ ['#', '%', '\\']

namespace Consists

variable {p q : Char → Bool} {a b s : String}

instance : DecidablePred (Consists p) := fun s =>
  decidable_of_iff (s.toList.all p = true) List.all_eq_true

@[simp] theorem append_iff : Consists p (a ++ b) ↔ Consists p a ∧ Consists p b := by
  simp only [Consists, String.toList_append, List.forall_mem_append]

theorem append (ha : Consists p a) (hb : Consists p b) : Consists p (a ++ b) :=
  append_iff.2 ⟨ha, hb⟩

theorem mono (h : Consists p s) (hpq : ∀ c, p c = true → q c = true) : Consists q s :=
  fun c hc => hpq c (h c hc)

theorem notMem (h : Consists p s) {c : Char} (hc : p c = false) : c ∉ s.toList := by
  intro hm
  rw [h c hm] at hc
  cases hc

theorem literal (h : Consists isPlain s) : Consists isLiteral s := by
  refine h.mono fun c hc => ?_
  rw [isPlain, Bool.and_eq_true] at hc
  exact hc.1

theorem not_isSpace (h : Consists isLiteral s) : ∀ c ∈ s.toList, isSpace c = false := by
  intro c hc
  have hl := h c hc
  simp only [isLiteral, Bool.and_eq_true, Bool.not_eq_true'] at hl
  exact hl.1

theorem isWord (h : Consists isLiteral s) (hn : s ≠ "") : IsWord s := ⟨hn, h.not_isSpace⟩

end Consists

structure IsVariable (name : String) : Prop where
  ne_empty : name ≠ ""
  consists : Consists Configuration.isTargetChar name

instance : DecidablePred IsVariable := fun name =>
  decidable_of_iff (name ≠ "" ∧ Consists Configuration.isTargetChar name)
    ⟨fun h => ⟨h.1, h.2⟩, fun h => ⟨h.ne_empty, h.consists⟩⟩

end Characters

section Functions

inductive Function where
  | filter
  | notdir
  | patsubst
deriving DecidableEq

def patternStem? (pattern : String × String) (word : String) : Option String :=
  (Text.dropLead? pattern.1 word).bind fun rest =>
    if pattern.2.toList.isSuffixOf rest.toList then
      some (String.ofList (rest.toList.take (rest.toList.length - pattern.2.toList.length)))
    else none

def replacePercent (replacement stem : String) : String :=
  match Text.splitOnce? '%' replacement with
  | some (before, after) => before ++ stem ++ after
  | none => replacement

def fileName (path : String) : String := ((Text.splitLast? '/' path).map Prod.snd).getD path

namespace Function

def name : Function → String
  | .filter => "filter"
  | .notdir => "notdir"
  | .patsubst => "patsubst"

def ofName? : String → Option Function
  | "filter" => some .filter
  | "notdir" => some .notdir
  | "patsubst" => some .patsubst
  | _ => none

theorem ofName?_name (f : Function) : ofName? f.name = some f := by cases f <;> rfl

def arity : Function → Nat
  | .filter => 2
  | .notdir => 1
  | .patsubst => 3

/-- The value of a call. Patterns without a `%` are not described. -/
def apply : Function → List String → Option String
  | .filter, [patterns, text] =>
    ((words patterns).mapM (Text.splitOnce? '%')).map fun patterns =>
      unwords ((words text).filter fun w => patterns.any fun p => (patternStem? p w).isSome)
  | .notdir, [text] => some (unwords ((words text).map fileName))
  | .patsubst, [pattern, replacement, text] =>
    (Text.splitOnce? '%' pattern).map fun pattern =>
      unwords ((words text).map fun w =>
        ((patternStem? pattern w).map (replacePercent replacement)).getD w)
  | _, _ => none

end Function

theorem patternStem?_append (stem tail : String) :
    patternStem? ("", tail) (stem ++ tail) = some stem := by
  simp [patternStem?, Text.dropLead?]

theorem isSome_patternStem?_iff {tail word : String} :
    (patternStem? ("", tail) word).isSome = true ↔ tail.toList <:+ word.toList := by
  simp [patternStem?, Text.dropLead?]

theorem splitOnce?_percent (tail : String) :
    Text.splitOnce? '%' ("%" ++ tail) = some ("", tail) := by
  simp [Text.splitOnce?, Text.cut?]

theorem replacePercent_append {before : String} (h : '%' ∉ before.toList) (after stem : String) :
    replacePercent (before ++ "%" ++ after) stem = before ++ stem ++ after := by
  simp [replacePercent, Text.splitOnce?, Text.cut?_append h]

theorem apply_filter {tail : String} (h : Consists isLiteral tail) (text : String) :
    Function.filter.apply ["%" ++ tail, text] =
      some (unwords ((words text).filter fun w => (patternStem? ("", tail) w).isSome)) := by
  have hp : Consists isLiteral ("%" ++ tail) := Consists.append (by decide) h
  have hw : words ("%" ++ tail) = ["%" ++ tail] := (hp.isWord (by simp)).words_eq
  simp [Function.apply, hw, splitOnce?_percent]

theorem apply_notdir (text : String) :
    Function.notdir.apply [text] = some (unwords ((words text).map fileName)) :=
  rfl

theorem apply_patsubst (tail replacement text : String) :
    Function.patsubst.apply ["%" ++ tail, replacement, text] =
      some (unwords ((words text).map fun w =>
        ((patternStem? ("", tail) w).map (replacePercent replacement)).getD w)) := by
  simp [Function.apply, splitOnce?_percent]

end Functions

section Expansion

def valueOf (v : OrderedMap String) (name : String) : String := (v.find? name).getD ""

def listOf (v : OrderedMap String) (name : String) : List String := words (valueOf v name)

structure Call where
  function : Function
  arguments : List String := []
  last : String := ""

inductive Pending where
  | dollar
  | name (read : String)

/-- A text that is being expanded: what its references have become so far, the calls that are open,
the innermost first, and the reference that has been begun. -/
structure Expansion where
  output : String := ""
  calls : List Call := []
  pending : Option Pending := none

namespace Expansion

def emit (s : Expansion) (text : String) : Expansion :=
  match s.calls with
  | [] => { s with output := s.output ++ text }
  | call :: rest => { s with calls := { call with last := call.last ++ text } :: rest }

def stepName (v : OrderedMap String) (s : Expansion) (name : String) (c : Char) :
    Option Expansion :=
  if c = ')' then some ({ s with pending := none }.emit (valueOf v name))
  else if isSpace c then
    (Function.ofName? name).map fun f =>
      { s with pending := none, calls := { function := f } :: s.calls }
  else if Configuration.isTargetChar c then
    some { s with pending := some (.name (name.push c)) }
  else none

def stepCall (s : Expansion) (call : Call) (rest : List Call) (c : Char) : Option Expansion :=
  if c = ')' then
    (call.function.apply (call.arguments ++ [call.last])).map { s with calls := rest }.emit
  else if c = ',' ∧ call.arguments.length + 1 < call.function.arity then
    some { s with
      calls := { call with arguments := call.arguments ++ [call.last], last := "" } :: rest }
  else if c = '(' ∨ (isSpace c ∧ call.arguments = [] ∧ call.last = "") then none
  else some (s.emit (String.singleton c))

def step (v : OrderedMap String) (s : Expansion) (c : Char) : Option Expansion :=
  match s.pending with
  | some .dollar => if c = '(' then some { s with pending := some (.name "") } else none
  | some (.name name) => stepName v s name c
  | none =>
    if c = '$' then some { s with pending := some .dollar }
    else
      match s.calls with
      | [] => some (s.emit (String.singleton c))
      | call :: rest => stepCall s call rest c

def read (v : OrderedMap String) (s : Expansion) (text : String) : Option Expansion :=
  text.toList.foldlM (step v) s

def result? (s : Expansion) : Option String :=
  if s.calls.isEmpty && s.pending.isNone then some s.output else none

@[simp] theorem pending_emit (s : Expansion) (text : String) :
    (s.emit text).pending = s.pending := by
  unfold emit
  split <;> rfl

theorem emit_emit (s : Expansion) (a b : String) : (s.emit a).emit b = s.emit (a ++ b) := by
  obtain ⟨output, calls, pending⟩ := s
  cases calls <;> simp [emit, String.append_assoc]

theorem emit_empty (s : Expansion) : s.emit "" = s := by
  obtain ⟨output, calls, pending⟩ := s
  cases calls <;> simp [emit]

theorem read_append (v : OrderedMap String) (s : Expansion) (a b : String) :
    read v s (a ++ b) = (read v s a).bind fun s => read v s b := by
  rw [read, String.toList_append, List.foldlM_append]
  rfl

theorem read_singleton (v : OrderedMap String) (s : Expansion) (c : Char) :
    read v s (String.singleton c) = step v s c := by
  simp [read]

theorem step_literal {v : OrderedMap String} {s : Expansion} {c : Char} (hs : s.pending = none)
    (hc : isLiteral c = true) : step v s c = some (s.emit (String.singleton c)) := by
  simp only [isLiteral, Bool.and_eq_true, Bool.not_eq_true', decide_eq_true_eq, List.mem_cons,
    List.not_mem_nil, or_false, not_or] at hc
  obtain ⟨hsp, hd, ho, hcl, hco⟩ := hc
  unfold step
  rw [hs]
  simp only [hd, if_false]
  split
  · rfl
  · simp [stepCall, hcl, hco, ho, hsp]

theorem step_output {v : OrderedMap String} {s : Expansion} {c : Char} (hs : s.pending = none)
    (hl : s.calls = []) (hc : c ≠ '$') : step v s c = some (s.emit (String.singleton c)) := by
  simp [step, hs, hl, hc]

/-- Where every character stands for itself, the text does; `P` is what reading keeps true. -/
theorem read_of_steps {v : OrderedMap String} {P : Expansion → Prop} {text : String}
    (hP : ∀ s t, P s → P (s.emit t))
    (h : ∀ s c, P s → c ∈ text.toList → step v s c = some (s.emit (String.singleton c)))
    {s : Expansion} (hs : P s) : read v s text = some (s.emit text) := by
  obtain ⟨l, rfl⟩ : ∃ l, text = String.ofList l := ⟨text.toList, (String.ofList_toList).symm⟩
  simp only [read, String.toList_ofList] at h ⊢
  induction l generalizing s with
  | nil => exact congrArg some (emit_empty s).symm
  | cons c rest ih =>
    have hc := h s c hs List.mem_cons_self
    have hr := ih (hP s (String.singleton c) hs) fun s x hs hx =>
      h s x hs (List.mem_cons_of_mem c hx)
    rw [List.foldlM_cons, hc, show String.ofList (c :: rest) = String.singleton c ++
      String.ofList rest from (by simp), ← emit_emit]
    exact hr

variable {v : OrderedMap String} {output : String} {calls : List Call}

theorem read_opening :
    read v ⟨output, calls, none⟩ "$(" = some ⟨output, calls, some (.name "")⟩ :=
  rfl

theorem read_name {name : String} (h : Consists Configuration.isTargetChar name)
    (before : String) :
    read v ⟨output, calls, some (.name before)⟩ name =
      some ⟨output, calls, some (.name (before ++ name))⟩ := by
  obtain ⟨l, rfl⟩ : ∃ l, name = String.ofList l := ⟨name.toList, (String.ofList_toList).symm⟩
  simp only [Consists, read, String.toList_ofList] at h ⊢
  induction l generalizing before with
  | nil => simp
  | cons c rest ih =>
    have hc := h c List.mem_cons_self
    have hb : c ≠ ')' := by
      rintro rfl
      exact absurd hc (by decide)
    have hs : isSpace c = false := isSpace_of_isTargetChar hc
    have hstep : step v ⟨output, calls, some (.name before)⟩ c =
        some ⟨output, calls, some (.name (before.push c))⟩ := by
      simp [step, stepName, hb, hs, hc]
    rw [List.foldlM_cons, hstep, show before ++ String.ofList (c :: rest) =
      before.push c ++ String.ofList rest from (by simp [← String.toList_inj])]
    exact ih (before.push c) fun x hx => h x (List.mem_cons_of_mem c hx)

end Expansion

open Expansion

def Expands (v : OrderedMap String) (text value : String) : Prop :=
  ∀ s : Expansion, s.pending = none → read v s text = some (s.emit value)

namespace Expands

variable {v : OrderedMap String}

theorem literal {text : String} (h : Consists isLiteral text) : Expands v text text := by
  intro s hs
  refine read_of_steps (P := fun s => s.pending = none) ?_ ?_ hs
  · intro s t hs
    rwa [pending_emit]
  · intro s c hs hc
    exact step_literal hs (h c hc)

theorem reference {name : String} (h : Consists Configuration.isTargetChar name) :
    Expands v (Makefile.reference name) (valueOf v name) := by
  intro s hs
  obtain ⟨output, calls, pending⟩ := s
  obtain rfl : pending = none := hs
  rw [Makefile.reference, read_append, read_append, read_opening, Option.bind_some, read_name h,
    Option.bind_some]
  rfl

end Expands

section Calls

def callText (f : Function) (arguments : List String) : String :=
  "$(" ++ f.name ++ " " ++ ",".intercalate arguments ++ ")"

theorem exists_callText_eq (f : Function) (arguments : List String) :
    ∃ inner, callText f arguments = "$" ++ inner ++ ")" :=
  ⟨"(" ++ f.name ++ " " ++ ",".intercalate arguments, by simp [callText, ← String.toList_inj]⟩

variable {v : OrderedMap String} {f : Function}

theorem read_arguments {arguments values : List String} {output : String} {calls : List Call}
    (complete : List String) (h : List.Forall₂ (Expands v) arguments values) (hn : arguments ≠ [])
    (hf : complete.length + arguments.length = f.arity) :
    read v ⟨output, ⟨f, complete, ""⟩ :: calls, none⟩ (",".intercalate arguments ++ ")") =
      (f.apply (complete ++ values)).map (Expansion.mk output calls none).emit := by
  induction h generalizing complete with
  | nil => exact absurd rfl hn
  | @cons a x arguments values ha h ih =>
    have hr : read v ⟨output, ⟨f, complete, ""⟩ :: calls, none⟩ a =
        some ⟨output, ⟨f, complete, x⟩ :: calls, none⟩ := by
      rw [ha _ rfl]
      simp [emit]
    cases h with
    | nil =>
      rw [String.intercalate_singleton, read_append, hr, Option.bind_some,
        show ")" = String.singleton ')' from rfl, read_singleton]
      simp [step, stepCall]
    | @cons b y arguments values hb h =>
      have hc : read v ⟨output, ⟨f, complete, x⟩ :: calls, none⟩ "," =
          some ⟨output, ⟨f, complete ++ [x], ""⟩ :: calls, none⟩ := by
        have hl : complete.length + 1 < f.arity := by
          simp only [List.length_cons] at hf
          omega
        rw [show "," = String.singleton ',' from rfl, read_singleton]
        simp [step, stepCall, hl]
      rw [String.intercalate_cons_cons, String.append_assoc, read_append, read_append, hr,
        Option.bind_some, hc, Option.bind_some, ih (complete ++ [x]) (by simp)]
      · simp
      · simp at hf ⊢
        omega

theorem Expands.call {arguments values : List String} {value : String}
    (h : List.Forall₂ (Expands v) arguments values) (hf : arguments.length = f.arity)
    (hv : f.apply values = some value) : Expands v (callText f arguments) value := by
  intro s hs
  obtain ⟨output, calls, pending⟩ := s
  obtain rfl : pending = none := hs
  have hn : arguments ≠ [] := by
    rintro rfl
    cases f <;> cases hf
  have ho : read v ⟨output, calls, some (.name f.name)⟩ " " =
      some ⟨output, ⟨f, [], ""⟩ :: calls, none⟩ := by
    rw [show " " = String.singleton ' ' from rfl, read_singleton]
    simp [step, stepName, isSpace, Function.ofName?_name]
  have hname : Consists Configuration.isTargetChar f.name := by
    cases f <;> decide
  have ha : read v ⟨output, ⟨f, [], ""⟩ :: calls, none⟩ (",".intercalate arguments ++ ")") = _ :=
    read_arguments [] h hn (by simpa using hf)
  rw [List.nil_append, hv] at ha
  rw [callText, String.append_assoc, read_append, read_append, read_append, read_opening,
    Option.bind_some, read_name hname, Option.bind_some, String.empty_append, ho, Option.bind_some,
    ha]
  rfl

end Calls

/-- The text that a value becomes where it is assigned. -/
def expand (v : OrderedMap String) (text : String) : Option String :=
  (Expansion.read v {} text).bind Expansion.result?

theorem Expands.expand_eq {v : OrderedMap String} {text value : String}
    (h : Expands v text value) : expand v text = some value := by
  rw [expand, h {} rfl, Option.bind_some]
  simp [emit, result?]

theorem expand_of_no_dollar {v : OrderedMap String} {text : String} (h : '$' ∉ text.toList) :
    expand v text = some text := by
  have hr : read v {} text = some (Expansion.emit {} text) := by
    refine read_of_steps (P := fun s => s.pending = none ∧ s.calls = []) ?_ ?_ ⟨rfl, rfl⟩
    · rintro ⟨output, calls, pending⟩ t ⟨rfl, rfl⟩
      exact ⟨rfl, rfl⟩
    · rintro s c ⟨hp, hl⟩ hc
      exact step_output hp hl fun he => h (he ▸ hc)
  rw [expand, hr, Option.bind_some]
  simp [emit, result?]

end Expansion

end StudioMake.Makefile
