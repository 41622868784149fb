import StudioMake.Project.Configuration
import StudioMake.Proofs.Text.Decimal
import StudioMake.Proofs.Text.LetterCase

/-!
# Views of a setting

A setting can be asked for its entries, for a truth value and for a number. That of a list has
entries only. For any other the truth value and the number are those of the text, whatever the
table says of its kind. The entries do depend on the kind: a text is one entry, but what is read as
a truth value or a number has none.
-/

set_option autoImplicit false

namespace StudioMake

open Text

def PropertyKind.split? : PropertyKind → Option (String → List String)
  | .list => some splitList
  | .words => some splitWords
  | .text | .bool | .number => none

namespace PropertyValue

variable {kind : PropertyKind} {split : String → List String} {s : String} {b : Bool} {n : Int}

def SaysBool (s : String) (b : Bool) : Prop :=
  sameIgnoringCase (trim s) (if b then "true" else "false") = true

/-- A text that writes a number between blanks, and one of 64 bits. -/
def SaysNumber (s : String) (n : Int) : Prop :=
  WritesNumber (trim s).toList n ∧ -2 ^ 63 ≤ n ∧ n < 2 ^ 63

/-- A text of the kind that the table gives, where this is not text. -/
inductive Fits : PropertyKind → String → Prop
  | bool {s : String} {b : Bool} (h : SaysBool s b) : Fits .bool s
  | number {s : String} {n : Int} (h : SaysNumber s n) : Fits .number s

theorem bool?_eq_some_iff : bool? s = some b ↔ SaysBool s b := by
  have hdistinct (ht : sameIgnoringCase (trim s) "true" = true) :
      sameIgnoringCase (trim s) "false" = false := by
    rw [Bool.eq_false_iff]
    intro hf
    rw [sameIgnoringCase_iff] at ht hf
    exact absurd (ht.symm.trans hf) (by decide)
  unfold bool? SaysBool
  by_cases ht : sameIgnoringCase (trim s) "true" = true
  · cases b <;> simp [ht, hdistinct ht]
  · cases b <;> simp [ht]

theorem SaysBool.not_number (h : SaysBool s b) : ¬ SaysNumber s n := by
  intro hn
  obtain ⟨c, hc, hdigit⟩ := hn.1.exists_digit
  have hletters : (trim s).toList.all Char.isAlpha = true := by
    rw [(sameIgnoringCase_iff_alike.1 h).all_eq fun _ _ => isAlpha_eq]
    cases b <;> decide
  have halpha := isAlpha_iff.1 (List.all_eq_true.1 hletters c hc)
  have hrange := isDigit_iff.1 hdigit
  omega

theorem decode_of_split? (h : kind.split? = some split) (s : String) :
    decode kind s = .list (split s) := by
  cases kind <;> cases h <;> rfl

/-- A scalar is read as its kind if it fits, and else as text. -/
theorem decode_cases (h : kind.split? = none) (s : String) :
    (∃ b, SaysBool s b ∧ Fits kind s ∧ decode kind s = .bool b) ∨
    (∃ n, SaysNumber s n ∧ Fits kind s ∧ decode kind s = .number n) ∨
    ¬ Fits kind s ∧ decode kind s = .text s := by
  cases kind with
  | text => exact .inr (.inr ⟨nofun, rfl⟩)
  | list | words => cases h
  | bool =>
    cases hb : bool? s with
    | some b =>
      have hs := bool?_eq_some_iff.1 hb
      exact .inl ⟨b, hs, .bool hs, by rw [decode, hb]; rfl⟩
    | none =>
      refine .inr (.inr ⟨?_, by rw [decode, hb]; rfl⟩)
      intro hfits
      cases hfits with
      | bool hs =>
        rw [bool?_eq_some_iff.2 hs] at hb
        cases hb
  | number =>
    cases hn : number? s with
    | some n =>
      have hs := number?_eq_some_iff.1 hn
      exact .inr (.inl ⟨n, hs, .number hs, by rw [decode, hn]; rfl⟩)
    | none =>
      refine .inr (.inr ⟨?_, by rw [decode, hn]; rfl⟩)
      intro hfits
      cases hfits with
      | number hs =>
        rw [number?_eq_some_iff.2 hs] at hn
        cases hn

theorem toBool?_decode (h : kind.split? = none) :
    (decode kind s).toBool? = some b ↔ SaysBool s b := by
  rcases decode_cases h s with ⟨b', hs, -, hd⟩ | ⟨n, hs, -, hd⟩ | ⟨-, hd⟩
  · rw [hd, ← bool?_eq_some_iff, bool?_eq_some_iff.2 hs]
    rfl
  · rw [hd]
    exact ⟨nofun, fun hb => absurd hs hb.not_number⟩
  · rw [hd]
    exact bool?_eq_some_iff

theorem toNumber?_decode (h : kind.split? = none) :
    (decode kind s).toNumber? = some n ↔ SaysNumber s n := by
  rcases decode_cases h s with ⟨b, hs, -, hd⟩ | ⟨n', hs, -, hd⟩ | ⟨-, hd⟩
  · rw [hd]
    exact ⟨nofun, fun hn => absurd hn hs.not_number⟩
  · rw [hd, SaysNumber, ← number?_eq_some_iff, number?_eq_some_iff.2 hs]
    rfl
  · rw [hd]
    exact number?_eq_some_iff

theorem toList_decode_of_fits (h : Fits kind s) : (decode kind s).toList = [] := by
  have hkind : kind.split? = none := by cases h <;> rfl
  rcases decode_cases hkind s with ⟨b, -, -, hd⟩ | ⟨n, -, -, hd⟩ | ⟨hn, -⟩
  · rw [hd]
    rfl
  · rw [hd]
    rfl
  · exact absurd h hn

theorem toList_decode_of_not_fits (hkind : kind.split? = none) (h : ¬ Fits kind s) :
    (decode kind s).toList = if trim s = "" then [] else [trim s] := by
  rcases decode_cases hkind s with ⟨b, -, hf, -⟩ | ⟨n, -, hf, -⟩ | ⟨-, hd⟩
  · exact absurd hf h
  · exact absurd hf h
  · rw [hd]
    rfl

end PropertyValue

namespace Configuration

open PropertyValue

variable {c : Configuration} {tool name raw : String}

theorem property?_of_setting (h : c.tools.setting? tool name = some raw) :
    c.property? tool name = some (decode (PropertyKind.ofSetting tool name) raw) := by
  rw [property?, h]
  rfl

/-- A list is split, and has neither a truth value nor a number. A scalar has those that its text
says, under any kind. Its text is its one entry unless it is blank, or is read as the truth value or
the number that the table asks for: then there is none. -/
theorem views_of_setting (c : Configuration) {tool name raw : String}
    (h : c.tools.setting? tool name = some raw) :
    (∀ split, (PropertyKind.ofSetting tool name).split? = some split →
      c.propertyList tool name = split raw ∧
      c.propertyBool? tool name = none ∧ c.propertyNumber? tool name = none) ∧
    ((PropertyKind.ofSetting tool name).split? = none →
      (∀ b, c.propertyBool? tool name = some b ↔ SaysBool raw b) ∧
      (∀ n, c.propertyNumber? tool name = some n ↔ SaysNumber raw n) ∧
      (Fits (PropertyKind.ofSetting tool name) raw → c.propertyList tool name = []) ∧
      (¬ Fits (PropertyKind.ofSetting tool name) raw →
        c.propertyList tool name = if trim raw = "" then [] else [trim raw])) := by
  have hproperty := property?_of_setting h
  unfold propertyList propertyBool? propertyNumber?
  rw [hproperty, Option.map_some, Option.getD_some, Option.bind_some, Option.bind_some]
  constructor
  · intro split hsplit
    rw [decode_of_split? hsplit]
    exact ⟨rfl, rfl, rfl⟩
  · intro hkind
    exact ⟨fun _ => toBool?_decode hkind, fun _ => toNumber?_decode hkind, toList_decode_of_fits,
      toList_decode_of_not_fits hkind⟩

def numbered : Configuration :=
  { name := "Debug|Win32",
    tools := .ofList [(Tool.compiler, .ofList [("Optimization", " +2 "), ("Depth", " +2 ")])] }

theorem views_of_setting_numbered :
    numbered.tools.setting? Tool.compiler "Optimization" = some " +2 " ∧
    (PropertyKind.ofSetting Tool.compiler "Optimization").split? = none ∧
    Fits (PropertyKind.ofSetting Tool.compiler "Optimization") " +2 " ∧
    numbered.propertyNumber? Tool.compiler "Optimization" = some 2 ∧
    numbered.propertyList Tool.compiler "Optimization" = [] := by
  have hsetting : numbered.tools.setting? Tool.compiler "Optimization" = some " +2 " := by
    decide +kernel
  have hnumber : PropertyKind.ofSetting Tool.compiler "Optimization" = .number := by
    decide +kernel
  have hkind : (PropertyKind.ofSetting Tool.compiler "Optimization").split? = none := by
    rw [hnumber]
    rfl
  have hsays : SaysNumber " +2 " 2 := number?_eq_some_iff.1 (by decide +kernel)
  have hfits : Fits (PropertyKind.ofSetting Tool.compiler "Optimization") " +2 " :=
    hnumber ▸ .number hsays
  obtain ⟨-, hview, hentries, -⟩ := (views_of_setting numbered hsetting).2 hkind
  exact ⟨hsetting, hkind, hfits, (hview 2).2 hsays, hentries hfits⟩

/-- Of two scalars with one text that is not blank, the one that is read as a number has no
entry. -/
theorem number_has_no_entry :
    numbered.tools.setting? Tool.compiler "Optimization" = some " +2 " ∧
    numbered.tools.setting? Tool.compiler "Depth" = some " +2 " ∧
    PropertyKind.ofSetting Tool.compiler "Optimization" = .number ∧
    PropertyKind.ofSetting Tool.compiler "Depth" = .text ∧
    numbered.propertyList Tool.compiler "Optimization" = [] ∧
    numbered.propertyList Tool.compiler "Depth" = ["+2"] := by
  decide +kernel

end Configuration

end StudioMake
